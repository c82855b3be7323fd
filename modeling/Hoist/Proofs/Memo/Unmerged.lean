import Hoist.Proofs.Memo.Courses

/-!
# Maps that are not merged

Without merges each map keeps the cache that it began with, and what happens to it in a course is the
traffic of callers and listeners that come to this one map: the steps behind each action are put behind
those of the actions before.
-/

namespace Hoist.Memo

variable {κ ε ρ : Type}

namespace Traffic

/-- The traffic of one situation, with that of another one behind it. -/
def followedBy (t u : Traffic κ ε ρ) : Traffic κ ε ρ where
  cache := u.cache
  callers := t.callers ++ u.callers
  listeners := u.listeners
  pending := t.pending ++ u.pending
  started := t.started ++ u.started
  recorded := t.recorded ++ u.recorded
  received := t.received ++ u.received

variable [BEq κ] [Ord κ] {t u v : Traffic κ ε ρ}

omit [BEq κ] [Ord κ] in
theorem followedBy_quiet : t.followedBy (quiet t.cache t.listeners) = t := by
  simp [followedBy, quiet]

omit [BEq κ] [Ord κ] in
theorem followedBy_advance {i : Nat} {key : κ} {stage : Stage ε ρ} :
    t.followedBy (u.advance i key stage) =
      (t.followedBy u).advance (t.callers.length + i) key stage := by
  simp [followedBy, advance, List.set_append_right]

omit [BEq κ] [Ord κ] in
theorem callers_followedBy {i : Nat} {caller : Caller κ ε ρ} (h : u.callers[i]? = some caller) :
    (t.followedBy u).callers[t.callers.length + i]? = some caller := by
  simpa [followedBy, List.getElem?_append_right] using h

/-- Callers that came before do not hinder a step. -/
theorem Step.followedBy (h : Step u v) : Step (t.followedBy u) (t.followedBy v) := by
  cases h with
  | join key h => simpa [Traffic.followedBy] using Step.join (t := t.followedBy u) key h
  | own key h => simpa [Traffic.followedBy] using Step.own (t := t.followedBy u) key h
  | @start i key h =>
    have hstep := Step.start (callers_followedBy (t := t) h)
    rw [← followedBy_advance] at hstep
    simpa [Traffic.followedBy] using hstep
  | record value h =>
    have hstep := Step.record value (callers_followedBy (t := t) h)
    rw [← followedBy_advance] at hstep
    simpa [Traffic.followedBy] using hstep
  | publish h =>
    have hstep := Step.publish (callers_followedBy (t := t) h)
    rw [← followedBy_advance] at hstep
    simpa [Traffic.followedBy] using hstep
  | raise e h =>
    have hstep := Step.raise e (callers_followedBy (t := t) h)
    rw [← followedBy_advance] at hstep
    simpa [Traffic.followedBy] using hstep
  | answer h known =>
    have hstep := Step.answer (callers_followedBy (t := t) h) known
    rwa [← followedBy_advance] at hstep
  | subscribe n h => simpa [Traffic.followedBy] using Step.subscribe (t := t.followedBy u) n h
  | @deliver note front back h =>
    have hpending : (t.followedBy u).pending = (t.pending ++ front) ++ note :: back := by
      simp [Traffic.followedBy, h]
    simpa [Traffic.followedBy] using Step.deliver hpending

theorem Reaches.followedBy (h : Reaches (quiet t.cache t.listeners) u) :
    Reaches t (t.followedBy u) := by
  have hlift : Reaches (t.followedBy (quiet t.cache t.listeners)) (t.followedBy u) :=
    Relation.ReflTransGen.lift t.followedBy (fun _ _ hs => Step.followedBy hs) _ _ h
  rwa [followedBy_quiet] at hlift

omit [BEq κ] [Ord κ] in
theorem Resting.followedBy (h : t.Resting) (h' : u.Resting) : (t.followedBy u).Resting := by
  intro key i stage hat hbusy
  simp only [At, Traffic.followedBy, List.getElem?_append] at hat
  split at hat
  · exact h key i stage hat hbusy
  · exact h' key _ stage hat hbusy

end Traffic

open Traffic World

variable [BEq κ] [Ord κ]

/-- Steps lead from an unused map to some traffic, in which the map has computed, recorded and told
what it has in a world. -/
structure Serves (w : World κ ε ρ) (m : Nat) (t : Traffic κ ε ρ) : Prop where
  steps : Reaches (quiet .empty []) t
  resting : t.Resting
  cache : t.cache = w.cacheOf m
  listeners : t.listeners = w.listenersOf m
  started : t.started = noted m w.computed
  recorded : t.recorded = noted m w.recorded
  received : ∀ n ∈ t.listeners, noted n t.received = w.told n
  pending : w.failed = [] → t.pending = []

variable {w w' : World κ ε ρ} {m x : Nat} {t : Traffic κ ε ρ} {act : Action κ ε ρ}
  {ls : List (Listener κ ε ρ)} {u : Traffic κ ε ρ} {f : List (Nat × κ)}

theorem serves_ofRules (rules : List (κ → Plan κ ε ρ ρ)) :
    Serves (ofRules rules) m (quiet .empty []) where
  steps := .refl
  resting key i stage hat := by simp [At, quiet] at hat
  cache := by simp [quiet]
  listeners := by simp [quiet]
  started := rfl
  recorded := rfl
  received n hn := by cases hn
  pending _ := rfl

variable [LawfulBEq κ] [Std.LawfulEqOrd κ] [Std.TransOrd κ]

/-- The traffic behind a call or a subscription is put behind that of the map before. -/
theorem Serves.sound (h : Serves w m t) : Sound .empty [] t := h.steps.sound .empty .nil

/-- The traffic behind a call or a subscription is put behind that of the map before. -/
theorem Serves.used (h : Serves w m t) (hfit : w.Fit) (hu : Used w m ls u f w') :
    Serves w' m (t.followedBy u) where
  steps := by
    have hsteps := hu.steps
    rw [← h.cache, ← h.listeners] at hsteps
    exact h.steps.trans hsteps.followedBy
  resting := h.resting.followedBy hu.resting
  cache := (hu.cacheOf_self hfit).symm
  listeners := by simp [hu.listenersOf, Traffic.followedBy]
  started := by simp [Traffic.followedBy, hu.computed, noted_all, h.started]
  recorded := by simp [Traffic.followedBy, hu.recorded, noted_all, h.recorded]
  received n hn := by
    have hbefore : noted n t.received = w.told n := by
      by_cases hold : n ∈ t.listeners
      · exact h.received n hold
      · -- a listener that has just come was not told anything before
        have hnew : n ∈ ls.map (·.number) := by
          simpa [Traffic.followedBy, hu.listeners, ← h.listeners, hold] using hn
        rw [h.sound.untold hold, hfit.untold (hu.arrived hfit hnew)]
    simp [Traffic.followedBy, told, hu.notified, hbefore]
  pending hf := by
    rw [hu.failed, List.append_eq_nil_iff] at hf
    simp [Traffic.followedBy, h.pending hf.1, hu.pending hf.2]

/-- A call or a subscription at another map does not concern the map. -/
theorem Serves.used_elsewhere (h : Serves w m t) (hfit : w.Fit) (hu : Used w x ls u f w')
    (hapart : ¬ w.Share x m) : Serves w' m t := by
  have hx : m ≠ x := by
    rintro rfl
    exact hapart (share_self hu.lt)
  refine ⟨h.steps, h.resting, ?_, ?_, ?_, ?_, fun n hn => ?_, fun hf => ?_⟩
  · rw [hu.cacheOf_of_apart hapart, h.cache]
  · simp [hu.listenersOf, hx, h.listeners]
  · simp [hu.computed, noted_all, hx, h.started]
  · simp [hu.recorded, noted_all, hx, h.recorded]
  · have hout : n ∉ u.listeners := by
      rw [h.listeners] at hn
      rw [hu.listeners, List.mem_append, not_or]
      exact ⟨fun hn' => hx (hfit.listenersOf_apart hn hn'),
        fun hn' => hu.arrived hfit hn' (mem_numbers hn)⟩
    simp [told, hu.notified, (hu.sound hfit).untold hout, h.received n hn]
  · rw [hu.failed, List.append_eq_nil_iff] at hf
    exact h.pending hf.1

/-- Without merges, pointers stay as they are. -/
theorem pointer_of_unmerged {depth : Nat} {acts : List (Action κ ε ρ)} (hfit : w.Fit)
    (hacts : ∀ a b, .merge a b ∉ acts) (hcourse : w.course depth acts = some w') (x : Nat) :
    w'.pointer x = w.pointer x := by
  refine (hfit.along (P := fun v => v.pointer x = w.pointer x) rfl (fun hmem _ hact h => ?_) hcourse).1
  cases hact with
  | call hu | subscribe hu => exact hu.pointer.trans h
  | merge => exact absurd hmem (hacts _ _)

/-- What a map goes through in a course without merges is traffic. -/
theorem course_serves {rules : List (κ → Plan κ ε ρ ρ)} {depth : Nat} {acts : List (Action κ ε ρ)}
    (hacts : ∀ a b, .merge a b ∉ acts) (hcourse : (ofRules rules).course depth acts = some w)
    (m : Nat) : ∃ t, Serves w m t := by
  -- no other map shares the cache at any time
  have hbegin : ∀ x, (ofRules rules).Share x m → x = m := by
    rintro x ⟨c, hx, hm⟩
    rw [(pointer_ofRules.1 hx).2, (pointer_ofRules.1 hm).2]
  refine ((Fit.ofRules rules).along (P := fun v => (∀ x, v.Share x m → x = m) ∧ ∃ t, Serves v m t)
    ⟨hbegin, _, serves_ofRules rules⟩ ?_ hcourse).1.2
  rintro u act v hmem hfit hact ⟨hapart, t, ht⟩
  have used {x ls y f} (h : Used u x ls y f v) :
      (∀ z, v.Share z m → z = m) ∧ ∃ t, Serves v m t := by
    refine ⟨fun z hz => hapart z (h.share.1 hz), ?_⟩
    by_cases hx : x = m
    · subst hx
      exact ⟨_, ht.used hfit h⟩
    · exact ⟨t, ht.used_elsewhere hfit h fun hs => hx (hapart x hs)⟩
  cases hact with
  | call h | subscribe h => exact used h
  | merge => exact absurd hmem (hacts _ _)

end Hoist.Memo
