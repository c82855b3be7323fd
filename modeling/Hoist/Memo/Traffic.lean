import Mathlib.Logic.Relation
import Hoist.Memo.World

/-!
# Traffic on one map

Any number of callers may ask one map for keys at the same time, while listeners subscribe. What they
do comes in steps that nothing interrupts, and the steps of different callers come in any order. The
first caller of a key makes its entry and computes the key; the others find the entry and wait for its
outcome. A value is put among the results together with a note to every listener; a listener that
subscribes takes a note of every result. Notes are delivered one by one.
-/

namespace Hoist.Memo

/-- How far a caller has come. -/
inductive Stage (ε ρ : Type)
  /-- It made the entry of its key. -/
  | owns
  /-- It computes its key. -/
  | infers
  /-- Its value is recorded, but not yet the outcome of the entry. -/
  | holds (value : ρ)
  /-- It waits for the outcome of the entry. -/
  | waits
  | returned (outcome : Except ε ρ)

/-- A caller has yet to give its key an outcome. -/
def Stage.Busy {ε ρ : Type} : Stage ε ρ → Prop
  | .owns | .infers | .holds _ => True
  | .waits | .returned _ => False

structure Caller (κ ε ρ : Type) where
  key : κ
  stage : Stage ε ρ

/-- A map that is in use: what it knows, its callers in the order in which they came, its listeners,
the notes that are on their way, and what has happened. -/
structure Traffic (κ ε ρ : Type) where
  cache : Cache κ ε ρ
  callers : List (Caller κ ε ρ)
  listeners : List Nat
  pending : List (Nat × κ × ρ)
  /-- The keys whose computation was begun. -/
  started : List κ
  /-- The values that were recorded. -/
  recorded : List (κ × ρ)
  /-- What listeners were told. -/
  received : List (Nat × κ × ρ)

variable {κ ε ρ : Type} [BEq κ] [Ord κ]

namespace Cache

/-- A cache with a value among the results. -/
def record (c : Cache κ ε ρ) (key : κ) (value : ρ) : Cache κ ε ρ :=
  { c with results := insertSorted key value c.results }

/-- A cache with the outcome of an entry. -/
def settle (c : Cache κ ε ρ) (key : κ) (outcome : Except ε ρ) : Cache κ ε ρ :=
  { c with entries := setEntry key (some outcome) c.entries }

theorem complete_ok (c : Cache κ ε ρ) (key : κ) (value : ρ) :
    c.complete key (.ok value) = (c.record key value).settle key (.ok value) := rfl

end Cache

namespace Traffic

/-- A map that nobody has turned to yet. -/
def quiet (cache : Cache κ ε ρ) (listeners : List Nat) : Traffic κ ε ρ :=
  ⟨cache, [], listeners, [], [], [], []⟩

/-- A caller goes on to a stage. -/
def advance (t : Traffic κ ε ρ) (i : Nat) (key : κ) (stage : Stage ε ρ) : Traffic κ ε ρ :=
  { t with callers := t.callers.set i ⟨key, stage⟩ }

/-- One step of one caller or listener. -/
inductive Step : Traffic κ ε ρ → Traffic κ ε ρ → Prop
  /-- A caller finds the entry of its key. -/
  | join {t : Traffic κ ε ρ} (key : κ) {known : Option (Except ε ρ)}
      (h : t.cache.find? key = some known) :
      Step t { t with callers := t.callers ++ [⟨key, .waits⟩] }
  /-- A caller finds no entry of its key, and makes one. -/
  | own {t : Traffic κ ε ρ} (key : κ) (h : t.cache.find? key = none) :
      Step t { t with
        cache := t.cache.begin key
        callers := t.callers ++ [⟨key, .owns⟩] }
  | start {t : Traffic κ ε ρ} {i : Nat} {key : κ} (h : t.callers[i]? = some ⟨key, .owns⟩) :
      Step t { t.advance i key .infers with started := t.started ++ [key] }
  /-- A computation ends with a value, which all present listeners are to be told. -/
  | record {t : Traffic κ ε ρ} {i : Nat} {key : κ} (value : ρ)
      (h : t.callers[i]? = some ⟨key, .infers⟩) :
      Step t { t.advance i key (.holds value) with
        cache := t.cache.record key value
        recorded := t.recorded ++ [(key, value)]
        pending := t.pending ++ t.listeners.map (·, key, value) }
  /-- The value becomes the outcome of the entry. -/
  | publish {t : Traffic κ ε ρ} {i : Nat} {key : κ} {value : ρ}
      (h : t.callers[i]? = some ⟨key, .holds value⟩) :
      Step t { t.advance i key .waits with cache := t.cache.settle key (.ok value) }
  /-- A computation ends with a failure. -/
  | raise {t : Traffic κ ε ρ} {i : Nat} {key : κ} (e : ε)
      (h : t.callers[i]? = some ⟨key, .infers⟩) :
      Step t { t.advance i key .waits with cache := t.cache.settle key (.error e) }
  | answer {t : Traffic κ ε ρ} {i : Nat} {key : κ} {outcome : Except ε ρ}
      (h : t.callers[i]? = some ⟨key, .waits⟩)
      (known : t.cache.find? key = some (some outcome)) :
      Step t (t.advance i key (.returned outcome))
  /-- A new listener is to be told all results. -/
  | subscribe {t : Traffic κ ε ρ} (n : Nat) (h : n ∉ t.listeners) :
      Step t { t with
        listeners := t.listeners ++ [n]
        pending := t.pending ++ t.cache.results.map (n, ·) }
  | deliver {t : Traffic κ ε ρ} {note : Nat × κ × ρ} {front back : List (Nat × κ × ρ)}
      (h : t.pending = front ++ note :: back) :
      Step t { t with pending := front ++ back, received := t.received ++ [note] }

/-- The steps that lead from one situation to another. -/
def Reaches : Traffic κ ε ρ → Traffic κ ε ρ → Prop := Relation.ReflTransGen Step

end Traffic

end Hoist.Memo
