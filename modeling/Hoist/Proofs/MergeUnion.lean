import Hoist.Proofs.Memo.Listeners
import Hoist.Proofs.Memo.Unmerged

/-!
# What two merged maps know

Two maps that are merged know the keys that either of them knew, each with its outcome in the second
map or, failing that, in the first one. The results that a new listener is told are put together in the
same way, but by themselves: the value of the first map stays among them when the computation of its
key has failed in the second one.
-/

namespace Hoist.Memo

open World

variable {κ ε ρ : Type} [BEq κ] [LawfulBEq κ] [Ord κ] [Std.LawfulEqOrd κ] [Std.TransOrd κ]
  {u v w : World κ ε ρ} {a b m x : Nat} {key : κ} {value : ρ} {outcome : Except ε ρ}

section Answers

omit [LawfulBEq κ] [Std.LawfulEqOrd κ] [Std.TransOrd κ] in
/-- An entry has an outcome between actions. -/
theorem World.Fit.find?_eq (h : w.Fit) : (w.cacheOf m).find? key = (w.answer m key).map some := by
  rw [answer]
  cases hfind : (w.cacheOf m).find? key with
  | none => rfl
  | some known =>
    cases known with
    | none => exact absurd hfind (h.settled m key)
    | some outcome => rfl

omit [Std.LawfulEqOrd κ] [Std.TransOrd κ] in
theorem answer_merge (h : w.Fit) (ha : a < w.maps.length) (hb : b < w.maps.length)
    (hx : x = b ∨ w.Share a x) :
    (w.merge a b).answer x key = (w.answer b key).or (w.answer a key) := by
  rw [answer, find?_merge h ha hb hx, h.find?_eq, h.find?_eq]
  cases w.answer b key <;> cases w.answer a key <;> rfl

omit [LawfulBEq κ] [Std.LawfulEqOrd κ] [Std.TransOrd κ] in
/-- A call of such a key gives its outcome and does nothing else. -/
theorem demand_answer (h : w.answer m key = some outcome) (d : Nat) :
    Ends (Run.demand (d + 1) m key) w outcome w := by
  obtain ⟨known, hfind, rfl⟩ : ∃ known, (w.cacheOf m).find? key = some known ∧ known = some outcome := by
    simpa [answer, Option.join_eq_some_iff] using h
  cases hm : w.maps[m]? with
  | none => simp [cacheOf, hm] at hfind
  | some map => simp [Run.demand, hm, hfind]

omit [BEq κ] [LawfulBEq κ] [Ord κ] [Std.LawfulEqOrd κ] [Std.TransOrd κ] in
/-- A listener that does nothing is told everything. -/
theorem replay_listen {demand : κ → Run κ ε ρ ρ} {n : Nat} {history : List (κ × ρ)} :
    Ends (Run.replay demand ⟨n, fun _ _ => .done ()⟩ history) w (.ok ())
      { w with notified := w.notified ++ history.map (n, ·) } := by
  induction history generalizing w with
  | nil => simp [Run.replay]
  | cons p rest ih =>
    obtain ⟨key, value⟩ := p
    have htell : Ends (Run.tell demand key value ⟨n, fun _ _ => .done ()⟩) w (.ok ())
        { w with notified := w.notified ++ [(n, key, value)] } := by
      simp [Run.tell, Ends.react_iff, Plan.run]
    refine Ends.bind_iff.2 (.inl ⟨(), _, htell, ?_⟩)
    simpa using ih (w := { w with notified := w.notified ++ [(n, key, value)] })

/-- On a map that is not merged, the results are the values that calls give. -/
theorem Serves.mem_results {t : Traffic κ ε ρ} (h : Serves w m t) :
    (key, value) ∈ (w.cacheOf m).results ↔ w.answer m key = some (.ok value) := by
  have hresults : (key, value) ∈ t.cache.results ↔ (key, value) ∈ t.recorded :=
    h.sound.results.mem_iff
  rw [answer, ← h.cache, hresults]
  rcases h.sound.at_rest h.resting key with ⟨-, hnot, hentry⟩ | ⟨outcome, -, hrecorded, -, hentry⟩
  · simp [hnot value, hentry]
  · simp [hrecorded value, hentry]

omit [LawfulBEq κ] [Std.LawfulEqOrd κ] [Std.TransOrd κ] in
/-- A listener that does nothing is told the results of its map, and its subscription comes to its end. -/
theorem subscribe_listen (h : w.Fit) (hm : m < w.maps.length) (d : Nat) :
    ∃ v, w.after d (.subscribe m fun _ _ => .done ()) = some v ∧
      v.told w.numbers.length = (w.cacheOf m).results := by
  let l : Listener κ ε ρ := ⟨w.numbers.length, fun _ _ => .done ()⟩
  have hends : Ends (Run.subscribe d m l) w (.ok ()) { w.joined m [l] with
      notified := w.notified ++ (w.cacheOf m).results.map (l.number, ·) } := by
    simp only [Run.subscribe, Ends.get_bind, Ends.modify_bind]
    exact replay_listen
  have hbefore : noted w.numbers.length w.notified = [] := h.untold h.fresh
  refine ⟨_, by rw [after, if_pos hm, show ended _ = _ from hends, Option.map_some], ?_⟩
  simp [told, hbefore, noted_all, l]

end Answers

/-- Behind a merge of two maps whose keys have their outcomes, each of the two knows the keys that one
of them knew, and a call gives the outcome in the second map or else that in the first one, without any
computation. What a new listener is told are distinct keys with the values that calls give, and besides
with those that the first map had for keys that have failed in the second one: all of them if it does
nothing else, and otherwise as many as it takes before it fails, with what is recorded meanwhile. -/
theorem merge_union {rules : List (κ → Plan κ ε ρ ρ)} {acts : List (Action κ ε ρ)} {depth : Nat}
    (h : (ofRules rules).course depth acts = some w) (hacts : ∀ x y, .merge x y ∉ acts)
    (ha : a < rules.length) (hb : b < rules.length) (hx : x = a ∨ x = b) :
    (∀ key, (w.merge a b).contains x key = (w.contains a key || w.contains b key)) ∧
    (∀ key, (w.merge a b).contains x key → ∃ outcome,
      (w.answer b key).or (w.answer a key) = some outcome ∧
      ∀ d, ended (Run.demand (d + 1) x key (w.merge a b)) = some (outcome, w.merge a b)) ∧
    (((w.merge a b).cacheOf x).results.map Prod.fst).Nodup ∧
    (∀ key value, (key, value) ∈ ((w.merge a b).cacheOf x).results ↔
      (w.answer b key).or (w.answer a key) = some (.ok value) ∨
        (w.answer a key = some (.ok value) ∧ ∃ e, w.answer b key = some (.error e))) ∧
    (∀ d, ∃ v, (w.merge a b).after d (.subscribe x fun _ _ => .done ()) = some v ∧
      v.told w.numbers.length = ((w.merge a b).cacheOf x).results) ∧
    ∀ d react v, (w.merge a b).after d (.subscribe x react) = some v →
      ∃ since, v.recorded = w.recorded ++ since ∧
        (v.told w.numbers.length).Subperm ((w.merge a b).due x since) ∧
        (v.failed = w.failed → (v.told w.numbers.length).Perm ((w.merge a b).due x since)) := by
  have hfit := (Fit.ofRules rules).course h
  have hserves (m : Nat) : ∃ t, Serves w m t := course_serves hacts h m
  have hthere {m : Nat} (hm : m < rules.length) : m < w.maps.length :=
    lt_of_pointer ((pointer_of_unmerged (.ofRules rules) hacts h m).trans (pointer_ofRules.2 ⟨hm, rfl⟩))
  have ha := hthere ha
  have hb := hthere hb
  have hjoined : x = b ∨ w.Share a x := by
    rcases hx with rfl | rfl
    · exact .inr (share_self ha)
    · exact .inl rfl
  have hu : (w.merge a b).Fit := hfit.merge ha hb
  have hlength : (w.merge a b).maps.length = w.maps.length := by
    simpa using congrArg List.length (listeners_merge (w := w) (a := a) (b := b))
  have hxu : x < (w.merge a b).maps.length := by
    rw [hlength]
    rcases hx with rfl | rfl
    · exact ha
    · exact hb
  refine ⟨fun key => ?_, fun key hknown => ?_, (hu.orderly x).inOrder.nodup, fun key value => ?_,
    fun d => ?_, fun d react v hv => ?_⟩
  · simp [contains, find?_merge hfit ha hb hjoined, Bool.or_comm]
  · rw [contains, hu.find?_eq, Option.isSome_map] at hknown
    obtain ⟨outcome, hanswer⟩ := Option.isSome_iff_exists.1 hknown
    exact ⟨outcome, (answer_merge hfit ha hb hjoined).symm.trans hanswer, demand_answer hanswer⟩
  · obtain ⟨ta, hta⟩ := hserves a
    obtain ⟨tb, htb⟩ := hserves b
    have hkeys : key ∈ (w.cacheOf b).results.map Prod.fst ↔
        ∃ value, w.answer b key = some (.ok value) := by
      simp [← htb.mem_results]
    -- a key that failed in the second map has no result there that could replace the first one's
    rw [mem_results_merge hfit ha hb hjoined, hkeys, htb.mem_results, hta.mem_results]
    rcases w.answer b key with _ | e | value'
    · simp
    · simp
    · simp
  · have hlisten := subscribe_listen hu hxu d
    rwa [numbers_merge] at hlisten
  · have hacts := hu.acts hv
    cases hacts with
    | subscribe hused =>
      have hattends := hused.attends hu
      have htells := hattends.tells
      rw [numbers_merge, failed_merge] at htells
      exact ⟨_, hattends.recorded.trans (by rw [recorded_merge]), htells⟩

/-- Two maps that divide by their keys; the second one refuses to divide by zero. -/
def quotients : World Nat String Nat :=
  ofRules [fun key => .done (12 / key),
    fun key => if key = 0 then .fail "division by zero" else .done (12 / key)]

/-- The quotient that the second map has refused to compute is among the results of both. -/
theorem quotients_merged : ∃ w, quotients.course 1 [.call 0 0, .call 1 0, .call 0 3] = some w ∧
    (w.merge 0 1).contains 1 3 = true ∧ (0, 0) ∈ ((w.merge 0 1).cacheOf 1).results := by
  have h : quotients.course 1 [.call 0 0, .call 1 0, .call 0 3] = some _ := rfl
  obtain ⟨hknown, -, -, hresults, -⟩ :=
    merge_union (a := 0) (b := 1) (x := 1) h (by simp) (by decide) (by decide) (.inr rfl)
  exact ⟨_, h, (hknown 3).trans rfl, (hresults 0 0).2 (.inr ⟨rfl, "division by zero", rfl⟩)⟩

/-- A listener of the merged maps is told of a value for a key whose call fails. -/
theorem quotient_told_and_refused : ∃ w, quotients.course 1
    [.call 0 0, .call 1 0, .merge 0 1, .subscribe 0 fun _ _ => .done ()] = some w ∧
      w.told 0 = [(0, 0)] ∧
      (ended (Run.demand 1 0 0 w)).map (·.1) = some (.error "division by zero") :=
  ⟨_, rfl, by decide, rfl⟩

end Hoist.Memo
