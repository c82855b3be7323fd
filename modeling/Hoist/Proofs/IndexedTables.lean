import Hoist.Lowering.Failure
import Hoist.Proofs.Flat.Tables
import Mathlib.Tactic.Common

/-!
# Tables with an index

A table may keep its lambdas in a vector, with an index that leads from the hash of a name to a place
of the vector. Such a table shows no difference: each call that defines a lambda succeeds or fails as
it does without an index, vector and index stay in step, and a name is looked up in constant time
where a search of the list finds it.
-/

namespace Hoist.Flat

open Hoist.Lowering (Failure)

/-- A number for each space. -/
def Space.number : Space → UInt64
  | .local_ => 0
  | .global_ => 1
  | .builtin => 2

/-- A symbol as the key of an index. -/
structure Key where
  sym : Symbol

namespace Key

/-- Keys are compared as the variables they stand for. -/
instance : BEq Key := ⟨fun a b => a.sym.same b.sym⟩

instance : EquivBEq Key where
  rfl := Symbol.same_equivalence.refl _
  symm := Symbol.same_equivalence.symm
  trans := Symbol.same_equivalence.trans

/-- A generated symbol is hashed by its number alone, another one by its name and its space. -/
instance : Hashable Key :=
  ⟨fun k =>
    if k.sym.isGenerated then hash k.sym.token else hash k.sym.name ^^^ (k.sym.space.number <<< 1)⟩

/-- The hash of a symbol depends on nothing but what the symbol is known by. -/
theorem hash_eq (k : Key) :
    hash k = match k.sym.identity with
      | .inl token => hash token
      | .inr (space, name) => hash name ^^^ (space.number <<< 1) := by
  change (if k.sym.isGenerated then _ else _) = _
  unfold Symbol.identity
  split <;> rfl

/-- Symbols that are one variable have one hash. -/
instance : LawfulHashable Key where
  hash_eq a b h := by
    rw [hash_eq, hash_eq, Symbol.same_iff_identity.1 h]

end Key

/-- A lambda as a table keeps it. -/
structure Owned where
  lambda : Lambda
  /-- The number of the table. -/
  owner : Nat

/-- A table with a number of its own, and an index of the names of its lambdas. -/
structure IndexedTable where
  number : Nat
  defs : Array Owned
  places : Std.HashMap Key Nat

namespace IndexedTable

/-- The table without lambdas. -/
def empty (number : Nat) : IndexedTable := ⟨number, #[], ∅⟩

/-- Defines a lambda: its name is led to the end of the vector, and the lambda put there. -/
def define (l : Lambda) : EStateM Failure IndexedTable Owned := fun t =>
  if t.places.contains ⟨l.ref⟩ then .error (.redefinition l.ref.write) t
  else
    .ok ⟨l, t.number⟩
      { t with
        places := t.places.insertIfNew ⟨l.ref⟩ t.defs.size
        defs := t.defs.push ⟨l, t.number⟩ }

/-- Whether a name is taken. -/
def contains (t : IndexedTable) (s : Symbol) : Bool := t.places.contains ⟨s⟩

/-- What stands at a place of the vector. -/
def lambdaAt (t : IndexedTable) (place : Nat) : Except Table.AccessFault Owned :=
  match t.defs[place]? with
  | some d => .ok d
  | none => .error .outOfRange

/-- The lambda with a name, if there is one. -/
def find? (t : IndexedTable) (s : Symbol) : Except Table.AccessFault (Option Owned) :=
  match t.places[Key.mk s]? with
  | some place => (t.lambdaAt place).map some
  | none => .ok none

/-- The lambda with a name that has to be taken. -/
def get (t : IndexedTable) (s : Symbol) : Except Table.AccessFault Owned :=
  match t.places[Key.mk s]? with
  | some place => t.lambdaAt place
  | none => .error .outOfRange

/-- The table behind a call, whether that failed or not. -/
def behind (t : IndexedTable) (l : Lambda) : IndexedTable :=
  match define l t with
  | .ok _ u => u
  | .error _ u => u

/-- The table that some calls leave, made one after the other. -/
def made (number : Nat) (calls : List Lambda) : IndexedTable := calls.foldl behind (empty number)

/-- A table with an index stands for one without: its vector holds the lambdas of that one as its own,
and its index leads each name to the first of them that has it. -/
structure Represents (t : IndexedTable) (T : Table) : Prop where
  defs : t.defs.toList = T.lambdas.map (⟨·, t.number⟩)
  places : ∀ s, t.places[Key.mk s]? = T.lambdas.findIdx? (·.ref.same s)

namespace Represents

variable {t : IndexedTable} {T : Table} {l : Lambda} {s : Symbol}

theorem contains_eq (h : Represents t T) (s : Symbol) : t.contains s = T.contains s := by
  rw [IndexedTable.contains, Std.HashMap.contains_eq_isSome_getElem?, h.places, Table.contains,
    List.findIdx?_isSome]

/-- The place that a name is led to holds the lambda that is found under the name. -/
theorem lambdaAt_place (h : Represents t T) {place : Nat}
    (hplace : t.places[Key.mk s]? = some place) :
    ∃ l, T.find? s = some l ∧ t.lambdaAt place = .ok ⟨l, t.number⟩ := by
  rw [h.places] at hplace
  obtain ⟨hlt, -⟩ := List.findIdx?_eq_some_iff_getElem.1 hplace
  have hdef : t.defs[place]? = some ⟨T.lambdas[place], t.number⟩ := by
    rw [← Array.getElem?_toList, h.defs, List.getElem?_map, List.getElem?_eq_getElem hlt]
    rfl
  refine ⟨T.lambdas[place], ?_, by rw [lambdaAt, hdef]⟩
  rw [Table.find?, List.find?_eq_bind_findIdx?_getElem?, hplace, Option.bind_some,
    List.getElem?_eq_getElem hlt]

/-- A name that is led nowhere is not found. -/
theorem find?_eq_none (h : Represents t T) (hplace : t.places[Key.mk s]? = none) :
    T.find? s = none := by
  rw [h.places] at hplace
  rw [Table.find?, List.find?_eq_bind_findIdx?_getElem?, hplace, Option.bind_none]

theorem find?_eq (h : Represents t T) (s : Symbol) :
    t.find? s = .ok ((T.find? s).map (⟨·, t.number⟩)) := by
  rw [IndexedTable.find?]
  cases hplace : t.places[Key.mk s]? with
  | none => rw [h.find?_eq_none hplace]; rfl
  | some place =>
    obtain ⟨l, hfind, hl⟩ := h.lambdaAt_place hplace
    simp only [hl, hfind]
    rfl

theorem get_eq (h : Represents t T) (s : Symbol) : t.get s = (T.get s).map (⟨·, t.number⟩) := by
  rw [IndexedTable.get, Table.get]
  cases hplace : t.places[Key.mk s]? with
  | none => rw [h.find?_eq_none hplace]; rfl
  | some place =>
    obtain ⟨l, hfind, hl⟩ := h.lambdaAt_place hplace
    simp only [hl, hfind]
    rfl

/-- A call for a name that is taken fails and changes nothing. -/
theorem define_of_taken (h : Represents t T) (htaken : T.contains l.ref = true) :
    define l t = .error (.redefinition l.ref.write) t :=
  if_pos ((h.contains_eq l.ref).trans htaken)

/-- A call for a free name yields the lambda, and puts it at the end of vector and index. -/
theorem define_of_free (h : Represents t T) (hfree : T.contains l.ref = false) :
    ∃ u, define l t = .ok ⟨l, t.number⟩ u ∧ u.number = t.number ∧
      Represents u ⟨T.lambdas ++ [l]⟩ := by
  have hkey : t.places.contains ⟨l.ref⟩ = false := (h.contains_eq l.ref).trans hfree
  have hnew : ⟨l.ref⟩ ∉ t.places := fun hmem =>
    Bool.eq_false_iff.1 hkey (Std.HashMap.mem_iff_contains.1 hmem)
  have hsize : t.defs.size = T.lambdas.length := by
    rw [← Array.length_toList, h.defs, List.length_map]
  refine ⟨_, if_neg (Bool.eq_false_iff.1 hkey), rfl, by simp [h.defs], fun s => ?_⟩
  rw [Std.HashMap.getElem?_insertIfNew, h.places, Table.findIdx?_of_free hfree, hsize]
  exact if_congr (and_iff_left hnew) rfl rfl

/-- One call, made of both tables, keeps them alike. -/
theorem behind (h : Represents t T) (l : Lambda) :
    (t.behind l).number = t.number ∧ Represents (t.behind l) ((T.define? l).getD T) := by
  cases hl : T.contains l.ref with
  | false =>
    obtain ⟨u, hu, hnumber, hrep⟩ := h.define_of_free hl
    rw [IndexedTable.behind, hu, Table.define?_of_free hl]
    exact ⟨hnumber, hrep⟩
  | true =>
    rw [IndexedTable.behind, h.define_of_taken hl, Table.define?_of_taken hl]
    exact ⟨rfl, h⟩

/-- So do any calls. -/
theorem foldl_behind (h : Represents t T) (calls : List Lambda) :
    (calls.foldl IndexedTable.behind t).number = t.number ∧
      Represents (calls.foldl IndexedTable.behind t)
        (calls.foldl (fun T l => (T.define? l).getD T) T) := by
  induction calls generalizing t T with
  | nil => exact ⟨rfl, h⟩
  | cons l calls ih =>
    obtain ⟨hnumber, hrep⟩ := h.behind l
    exact ⟨(ih hrep).1.trans hnumber, (ih hrep).2⟩

theorem made (number : Nat) (calls : List Lambda) :
    (IndexedTable.made number calls).number = number ∧
      Represents (.made number calls) (Table.made calls) :=
  foldl_behind ⟨rfl, fun _ => Std.HashMap.getElem?_empty⟩ calls

end Represents

theorem made_snoc (number : Nat) (calls : List Lambda) (l : Lambda) :
    made number (calls ++ [l]) = (made number calls).behind l := by
  rw [made, List.foldl_append]
  rfl

/-- What a call does behind others: it is told from theirs whether the name is new. -/
theorem define_made (number : Nat) (calls : List Lambda) (l : Lambda) :
    define l (made number calls) =
      if calls.any (·.ref.same l.ref) then .error (.redefinition l.ref.write) (made number calls)
      else .ok ⟨l, number⟩ (made number (calls ++ [l])) := by
  obtain ⟨hnumber, hrep⟩ := Represents.made number calls
  rw [← Table.contains_made]
  cases hl : (Table.made calls).contains l.ref with
  | true => exact hrep.define_of_taken hl
  | false =>
    obtain ⟨u, hu, -⟩ := hrep.define_of_free hl
    rw [made_snoc, behind, hu, hnumber]
    rfl

end IndexedTable

/-- Whatever lambdas are defined one after the other, and whatever their names, a call fails if and
only if one before it has the same name, and then the table stays as it was. The table lists the
lambdas of the calls that succeed, in their order, and no two of them have one name; a name stands for
the first of the lambdas that were to be defined under it, which the table owns. All this holds alike
of a table with an index. -/
theorem definitions_keptInOrder (number : Nat) (calls : List Lambda) :
    Equivalence (fun a b : Symbol => a.same b = true) ∧
    (∀ l, IndexedTable.define l (.made number calls) =
      if calls.any (·.ref.same l.ref) then .error (.redefinition l.ref.write) (.made number calls)
      else .ok ⟨l, number⟩ (.made number (calls ++ [l]))) ∧
    (∀ l, (Table.made calls).define? l =
      if calls.any (·.ref.same l.ref) then none else some (.made (calls ++ [l]))) ∧
    (IndexedTable.made number calls).defs.toList = (Table.made calls).lambdas.map (⟨·, number⟩) ∧
    (Table.made calls).lambdas = Table.empty.accepted calls ∧
    ((Table.made calls).lambdas.Pairwise fun l m => l.ref.same m.ref = false) ∧
    ∀ s, ((IndexedTable.made number calls).contains s = (Table.firstNamed calls s).isSome ∧
        (IndexedTable.made number calls).find? s =
          .ok ((Table.firstNamed calls s).map (⟨·, number⟩)) ∧
        (IndexedTable.made number calls).get s =
          (Table.firstNamed calls s).elim (.error .outOfRange) fun l => .ok ⟨l, number⟩) ∧
      (Table.made calls).contains s = (Table.firstNamed calls s).isSome ∧
      (Table.made calls).find? s = Table.firstNamed calls s ∧
      (Table.made calls).get s = (Table.firstNamed calls s).elim (.error .outOfRange) .ok := by
  obtain ⟨hnumber, hrep⟩ := IndexedTable.Represents.made number calls
  have hcontains : ∀ s, (Table.made calls).contains s = (Table.firstNamed calls s).isSome :=
    fun s => by rw [Table.contains_eq_isSome, Table.find?_made]
  have hget : ∀ s, (Table.made calls).get s =
      (Table.firstNamed calls s).elim (.error .outOfRange) .ok := fun s => by
    rw [Table.get, Table.find?_made]
    cases Table.firstNamed calls s <;> rfl
  refine ⟨Symbol.same_equivalence, IndexedTable.define_made number calls, fun l => ?_,
    by rw [hrep.defs, hnumber], Table.lambdas_made, Table.made_pairwise,
    fun s => ⟨⟨?_, ?_, ?_⟩, hcontains s, Table.find?_made, hget s⟩⟩
  · rw [← Table.contains_made, Table.made_snoc]
    cases hl : (Table.made calls).contains l.ref with
    | true => exact Table.define?_of_taken hl
    | false => simp [Table.define?_of_free hl]
  · rw [hrep.contains_eq, hcontains]
  · rw [hrep.find?_eq, hnumber, Table.find?_made]
  · rw [hrep.get_eq, hnumber, hget]
    cases Table.firstNamed calls s <;> rfl

/-- A number makes a symbol another one than a global or a builtin of its name, and makes symbols of
two names one. -/
example :
    ((Table.made ([.global "f", ⟨7, "f", .local_, ""⟩, ⟨7, "g", .global_, "g"⟩, .builtin "f"].map
      (⟨·, [], .value none .none, none⟩))).lambdas.map (·.ref)) =
      [.global "f", ⟨7, "f", .local_, ""⟩, .builtin "f"] := by
  decide

end Hoist.Flat
