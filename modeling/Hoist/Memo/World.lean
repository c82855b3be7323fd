import Hoist.Memo.Plan

/-!
# Memoising maps

A map computes the value of a key by its rule, once: later requests get the recorded outcome, be it a
value or a failure. Listeners of a map are told of every value that is recorded through it, and of
those recorded before they subscribed.

Maps that were merged share a cache. The world holds the caches and the maps that point to them, and
what has happened: which keys were computed through which map and which values came of them, which
listener was told what, and which listener failed on what it was told.
-/

namespace Hoist.Memo

/-- What is known of the keys: an entry for each key that was asked for, without an outcome as long as
the key is being computed, and the values in the order of their keys. -/
structure Cache (κ ε ρ : Type) where
  entries : List (κ × Option (Except ε ρ))
  results : List (κ × ρ)

/-- Whoever is told of values: what it does may ask for further keys or fail. -/
structure Listener (κ ε ρ : Type) where
  number : Nat
  react : κ → ρ → Plan κ ε ρ Unit

/-- A map: the cache it points to, its rule, and its listeners in the order of their subscription. -/
structure Memoised (κ ε ρ : Type) where
  cache : Nat
  rule : κ → Plan κ ε ρ ρ
  listeners : List (Listener κ ε ρ)

/-- All caches and maps, and what has happened. -/
structure World (κ ε ρ : Type) where
  caches : List (Cache κ ε ρ)
  maps : List (Memoised κ ε ρ)
  /-- The keys computed so far, with the map they were computed through. -/
  computed : List (Nat × κ)
  /-- The values recorded so far, with the map they were computed through. -/
  recorded : List (Nat × κ × ρ)
  /-- What listeners were told so far. -/
  notified : List (Nat × κ × ρ)
  /-- The listeners that failed so far, with the key on which they did. -/
  failed : List (Nat × κ)

/-- What is noted under a number: what a listener was told, or what was computed through a map. -/
def noted {α : Type} (n : Nat) (notes : List (Nat × α)) : List α :=
  notes.filterMap fun note => if note.1 = n then some note.2 else none

/-- A step in a world. -/
abbrev Run (κ ε ρ : Type) := EStateM (Stop ε) (World κ ε ρ)

variable {κ ε ρ : Type} [BEq κ] [Ord κ]

/-- A pair put in the place of its key among pairs in the order of their keys, over an older one. -/
def insertSorted (key : κ) (value : ρ) : List (κ × ρ) → List (κ × ρ)
  | [] => [(key, value)]
  | (k, v) :: rest =>
    match compare key k with
    | .lt => (key, value) :: (k, v) :: rest
    | .eq => (key, value) :: rest
    | .gt => (k, v) :: insertSorted key value rest

/-- An entry put over an older one of its key, or at the end. -/
def setEntry (key : κ) (outcome : Option (Except ε ρ)) :
    List (κ × Option (Except ε ρ)) → List (κ × Option (Except ε ρ))
  | [] => [(key, outcome)]
  | (k, o) :: rest =>
    if k == key then (key, outcome) :: rest else (k, o) :: setEntry key outcome rest

namespace Cache

/-- The cache that knows nothing. -/
def empty : Cache κ ε ρ := ⟨[], []⟩

/-- What is known of a key. -/
def find? (c : Cache κ ε ρ) (key : κ) : Option (Option (Except ε ρ)) := c.entries.lookup key

/-- A cache with a key marked as being computed. -/
def begin (c : Cache κ ε ρ) (key : κ) : Cache κ ε ρ :=
  { c with entries := setEntry key none c.entries }

/-- A cache with the outcome of a key; only a value is among the results. -/
def complete (c : Cache κ ε ρ) (key : κ) (outcome : Except ε ρ) : Cache κ ε ρ where
  entries := setEntry key (some outcome) c.entries
  results :=
    match outcome with
    | .ok value => insertSorted key value c.results
    | .error _ => c.results

/-- A cache with everything another one knows, which wins where both know a key. -/
def absorb (mine theirs : Cache κ ε ρ) : Cache κ ε ρ where
  entries := theirs.entries.foldl (fun es p => setEntry p.1 p.2 es) mine.entries
  results := theirs.results.foldl (fun rs p => insertSorted p.1 p.2 rs) mine.results

end Cache

namespace World

/-- A world with one map for each rule, each with a cache of its own. -/
def ofRules (rules : List (κ → Plan κ ε ρ ρ)) : World κ ε ρ where
  caches := rules.map fun _ => .empty
  maps := rules.mapIdx fun i rule => ⟨i, rule, []⟩
  computed := []
  recorded := []
  notified := []
  failed := []

/-- The cache that a map points to. -/
def cacheOf (w : World κ ε ρ) (m : Nat) : Cache κ ε ρ :=
  match w.maps[m]? with
  | some map => w.caches[map.cache]?.getD .empty
  | none => .empty

/-- How many keys a map was asked for, itself or through the maps it shares its cache with. -/
def size (w : World κ ε ρ) (m : Nat) : Nat := (w.cacheOf m).entries.length

/-- Whether a map was asked for a key. -/
def contains (w : World κ ε ρ) (m : Nat) (key : κ) : Bool := ((w.cacheOf m).find? key).isSome

/-- Lets two maps share one cache, in which the entries of the second map win. Only the second map
itself is turned to the cache of the first one. -/
def merge (w : World κ ε ρ) (m other : Nat) : World κ ε ρ :=
  match w.maps[m]?, w.maps[other]? with
  | some mine, some theirs =>
    if m == other || mine.cache == theirs.cache then w
    else
      let cache := (w.cacheOf m).absorb (w.cacheOf other)
      { w with
        maps := w.maps.set other { theirs with cache := mine.cache }
        caches := w.caches.set mine.cache cache }
  | _, _ => w

/-- Whether two maps are provably the same property: only a map and itself are. -/
def equivalent (m other : Nat) : Bool := m == other

end World

namespace Run

/-- Runs a step and keeps its failure as a result. -/
def attempt {α : Type} (step : Run κ ε ρ α) : Run κ ε ρ (Except ε α) := fun w =>
  match step w with
  | .ok a w => .ok (.ok a) w
  | .error (.raised e) w => .ok (.error e) w
  | .error .stuck w => .error .stuck w

/-- An outcome as a step. -/
def ofOutcome {α : Type} : Except ε α → Run κ ε ρ α
  | .ok a => pure a
  | .error e => throw (.raised e)

/-- Changes the cache with a number. -/
def modifyCache (cache : Nat) (f : Cache κ ε ρ → Cache κ ε ρ) : Run κ ε ρ Unit :=
  modify fun w => { w with caches := w.caches.modify cache f }

/-- Lets a listener do what it does with a value, and keeps note of its failure. -/
def react (demand : κ → Run κ ε ρ ρ) (l : Listener κ ε ρ) (key : κ) (value : ρ) :
    Run κ ε ρ Unit := fun w =>
  match (l.react key value).run demand w with
  | .error (.raised e) w => .error (.raised e) { w with failed := w.failed ++ [(l.number, key)] }
  | result => result

/-- Tells a listener of a value. -/
def tell (demand : κ → Run κ ε ρ ρ) (key : κ) (value : ρ) (l : Listener κ ε ρ) :
    Run κ ε ρ Unit := do
  modify fun w => { w with notified := w.notified ++ [(l.number, key, value)] }
  react demand l key value

/-- Tells listeners of a value, one after the other; a failure leaves the later ones untold. -/
def notify (demand : κ → Run κ ε ρ ρ) (key : κ) (value : ρ) :
    List (Listener κ ε ρ) → Run κ ε ρ Unit
  | [] => return ()
  | l :: ls => do
    tell demand key value l
    notify demand key value ls

/-- Computes a key that a map owns, records its outcome, and tells the listeners. -/
def compute (demand : κ → Run κ ε ρ ρ) (m : Nat) (map : Memoised κ ε ρ) (key : κ) :
    Run κ ε ρ ρ := do
  modifyCache map.cache (·.begin key)
  modify fun w => { w with computed := w.computed ++ [(m, key)] }
  let outcome ← attempt ((map.rule key).run demand)
  modifyCache map.cache (·.complete key outcome)
  let value ← ofOutcome outcome
  modify fun w => { w with recorded := w.recorded ++ [(m, key, value)] }
  let listeners := ((← get).maps[m]?.map (·.listeners)).getD []
  notify demand key value listeners
  return value

/-- Asks a map for the value of a key. Keys may ask for keys up to a depth. -/
def demand : Nat → Nat → κ → Run κ ε ρ ρ
  | 0, _, _ => throw .stuck
  | depth + 1, m, key => do
    let w ← get
    match w.maps[m]? with
    | none => throw .stuck
    | some map =>
      match (w.cacheOf m).find? key with
      | some (some outcome) => ofOutcome outcome
      | some none => throw .stuck
      | none => compute (demand depth m) m map key

/-- Tells a listener of recorded values, one after the other. -/
def replay (demand : κ → Run κ ε ρ ρ) (listener : Listener κ ε ρ) :
    List (κ × ρ) → Run κ ε ρ Unit
  | [] => return ()
  | (key, value) :: rest => do
    tell demand key value listener
    replay demand listener rest

/-- Subscribes a listener to a map and tells it of the values recorded before. It stays subscribed
when it fails on one of them. -/
def subscribe (depth m : Nat) (listener : Listener κ ε ρ) : Run κ ε ρ Unit := do
  let history := ((← get).cacheOf m).results
  modify fun w => { w with
    maps := w.maps.modify m fun map => { map with listeners := map.listeners ++ [listener] } }
  replay (demand depth m) listener history

/-- Several requests for one key at once: the first to come computes it, and all get its outcome. -/
def demandAll (depth m : Nat) (key : κ) : Nat → Run κ ε ρ (List (Except ε ρ))
  | 0 => return []
  | n + 1 => do
    let outcome ← attempt (demand depth m key)
    return outcome :: (← demandAll depth m key n)

end Run

end Hoist.Memo
