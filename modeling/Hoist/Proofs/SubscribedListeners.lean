import Hoist.Proofs.Memo.Listeners

/-!
# What listeners are told in a course

A listener is told of the results that its map holds when it subscribes, and of every value that is
recorded through this map later, each once. It is not told of values that come with a merge, nor of
values that are recorded through another map with which its own shares a cache; as long as there are
none of these, it is told of all results of its map.
-/

namespace Hoist.Memo

open World

variable {κ ε ρ : Type} [BEq κ] [LawfulBEq κ] [Ord κ] [Std.LawfulEqOrd κ] [Std.TransOrd κ]
  {u w : World κ ε ρ} {m depth : Nat}

/-- From its subscription on to the end of a course, a listener is told no more than what its map held
and what was recorded through this map since, and all of it if no listener fails. This has no key twice,
and only keys that the map holds in the end; it is all that the map holds if the map has its cache for
itself and stays out of merges. -/
theorem subscribed_told {rules : List (κ → Plan κ ε ρ ρ)} {before later : List (Action κ ε ρ)}
    {react : κ → ρ → Plan κ ε ρ Unit} (hu : (ofRules rules).course depth before = some u)
    (hw : u.course depth (.subscribe m react :: later) = some w) :
    ∃ since, w.recorded = u.recorded ++ since ∧
      (w.told u.numbers.length).Subperm (u.due m since) ∧
      (w.failed = u.failed → (w.told u.numbers.length).Perm (u.due m since)) ∧
      ((u.due m since).map Prod.fst).Nodup ∧
      (u.due m since).map Prod.fst ⊆ (w.cacheOf m).results.map Prod.fst ∧
      ((∀ x, u.Share x m → x = m) → (∀ a b, .merge a b ∈ later → a ≠ m ∧ b ≠ m) →
        (u.due m since).Perm (w.cacheOf m).results) := by
  have hfit := (Fit.ofRules rules).course hu
  obtain ⟨c, since, hgrows⟩ := course_grows hfit hw
  have heq {since'} (h : w.recorded = u.recorded ++ since') : since' = since :=
    List.append_cancel_left (h.symm.trans hgrows.recorded_eq)
  obtain ⟨v, hafter, hrest⟩ := course_cons.1 hw
  obtain ⟨since', f, hattends⟩ : ∃ since' f, Attends u m u.numbers.length since' f w := by
    have hacts := hfit.acts hafter
    have hv := hacts.fit hfit
    cases hacts with
    | subscribe h => exact (h.attends hfit).course hv hrest
  obtain rfl := heq hattends.recorded
  refine ⟨_, hattends.recorded, hattends.tells.1, hattends.tells.2, hgrows.nodup_due hfit m,
    hgrows.due_subset m, fun hapart hacts => ?_⟩
  have hlater : ∀ a b, .merge a b ∈ .subscribe m react :: later → a ≠ m ∧ b ≠ m := by
    simpa using hacts
  obtain ⟨since'', halone⟩ := (Alone.refl hapart).course hfit hlater hw
  obtain rfl := heq halone.recorded
  exact halone.results.symm

/-- Two maps of numbers to their doubles. -/
def doubles : World Nat String Nat := ofRules (List.replicate 2 fun key => .done (key + key))

/-- A listener that does nothing with what it is told. -/
def listen (m : Nat) : Action Nat String Nat := .subscribe m fun _ _ => .done ()

/-- Between two calls a listener subscribes, and is told of the values of both. -/
theorem doubles_told : ∃ u w, doubles.course 1 [.call 0 3] = some u ∧
    u.course 1 [listen 0, .call 0 4] = some w ∧ (w.told 0).Perm [(3, 6), (4, 8)] := by
  let u := (doubles.course 1 [.call 0 3]).getD doubles
  have hu : doubles.course 1 [.call 0 3] = some u := rfl
  have hw : u.course 1 [listen 0, .call 0 4] = some _ := rfl
  obtain ⟨since, hsince, -, htold, -⟩ := subscribed_told hu hw
  obtain rfl : since = [(0, 4, 8)] := List.append_cancel_left hsince.symm
  exact ⟨_, _, hu, hw, htold rfl⟩

/-- A listener is not told of the value that is computed through the map that was merged into its own
one. -/
theorem double_untold : ∃ w, doubles.course 1 [listen 0, .merge 0 1, .call 1 5] = some w ∧
    (w.cacheOf 0).results = [(5, 10)] ∧ w.told 0 = [] :=
  ⟨_, rfl, by decide, by decide⟩

end Hoist.Memo
