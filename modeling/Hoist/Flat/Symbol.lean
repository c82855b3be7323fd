import Hoist.Sexp

/-!
# Symbols

The names of flat code. A generated symbol carries a number that no other one has, and only the
number counts: two of them with one name are two variables. A symbol without a number stands for a
global or a builtin, and is known by its space and its name.
-/

namespace Hoist.Flat

/-- Where a symbol without a number is looked up. -/
inductive Space
  | local_
  | global_
  | builtin
deriving DecidableEq, Repr, Inhabited

namespace Space

/-- The name of a space. -/
def name : Space → String
  | .local_ => "local"
  | .global_ => "global"
  | .builtin => "builtin"

end Space

/-- A symbol. Its number is zero unless it was generated; `relation` tells what part of the symbol it
was derived from it stands for. -/
structure Symbol where
  token : Nat
  name : String
  space : Space
  relation : String
deriving DecidableEq, Repr, Inhabited

namespace Symbol

/-- A global, by its name. -/
def global (name : String) : Symbol := ⟨0, name, .global_, ""⟩

/-- A builtin, by its name. -/
def builtin (name : String) : Symbol := ⟨0, name, .builtin, ""⟩

/-- Whether a symbol was generated. -/
def isGenerated (s : Symbol) : Bool := s.token != 0

/-- Whether two symbols are one variable: by number if one of them has a number, otherwise by space
and name. -/
def same (a b : Symbol) : Bool :=
  if a.isGenerated || b.isGenerated then a.token == b.token
  else a.space == b.space && a.name == b.name

/-- The text of a symbol: a number behind a hash, or two colons before a global. -/
def write (s : Symbol) : String :=
  if s.isGenerated then s.name ++ "#" ++ toString s.token
  else if s.space == .global_ then "::" ++ s.name
  else s.name

instance : Sexp.ToSexp Symbol := ⟨fun s => .atom s.write⟩

end Symbol

/-- The symbol after `issued` others. -/
def fresh (issued : Nat) (name : String) (space : Space) : Symbol :=
  ⟨issued + 1, name, space, ""⟩

/-- A global symbol named after another one, for a part of what that one stands for. -/
def derived (issued : Nat) (parent : Symbol) (tag : String) : Symbol :=
  ⟨issued + 1, parent.name ++ "/" ++ tag, .global_, tag⟩

/-- The builtins that lowering itself refers to. -/
def index : Symbol := .builtin "index"

/-- Selects an attribute by name. -/
def getattr : Symbol := .builtin "getattr"

/-- Yields a sequence with some of its items replaced. -/
def setslice : Symbol := .builtin "setslice"

/-- Picks its second or third argument by the truth of the first. -/
def switch : Symbol := .builtin "switch"

/-- Yields its argument. -/
def identity : Symbol := .builtin "identity"

/-- Makes a slice of its ends and its step. -/
def slice : Symbol := .builtin "slice"

end Hoist.Flat
