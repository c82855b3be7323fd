import Hoist.Proofs.Memo.Unmerged

/-!
# Computed once, told once

Callers may ask a map for keys and listeners may subscribe to it while others are under way, and their
steps may come in any order. Still a key is computed once, whoever asks for it gets the one outcome of
this computation, and every listener is told of every value, be it recorded before it subscribed or
later, and of nothing else. The maps of a course without merges go through such steps, and so compute and
tell in the same way.
-/

namespace Hoist.Memo

open Traffic

variable {κ ε ρ : Type} [BEq κ] [LawfulBEq κ] [Ord κ] [Std.LawfulEqOrd κ] [Std.TransOrd κ]

section

variable {t : Traffic κ ε ρ} {n : Nat} {key : κ} {value : ρ}

omit [LawfulBEq κ] [Std.LawfulEqOrd κ] [Std.TransOrd κ] in
/-- A key with a recorded value has not failed. -/
theorem Traffic.Sound.not_failed {base : Cache κ ε ρ} {present : List Nat} (h : Sound base present t)
    (hrecorded : (key, value) ∈ t.recorded) (e : ε) :
    t.cache.find? key ≠ some (some (.error e)) := by
  cases h.phase key with
  | untouched nobody started recorded => exact absurd hrecorded (recorded value)
  | owned i busy started recorded => exact absurd hrecorded (recorded value)
  | inferred i busy started recorded => exact absurd hrecorded (recorded value)
  | held i v busy started recorded unknown entry => simp [entry]
  | settled outcome nobody started recorded unknown entry =>
    simp [entry, (recorded value).1 hrecorded]

omit [LawfulBEq κ] [Std.LawfulEqOrd κ] [Std.TransOrd κ] in
/-- A key whose computation ended with a value has this value recorded, if the map did not know it. -/
theorem Traffic.Sound.recorded_of_ok {base : Cache κ ε ρ} {present : List Nat}
    (h : Sound base present t) (hbase : base.find? key = none)
    (hentry : t.cache.find? key = some (some (.ok value))) : (key, value) ∈ t.recorded := by
  cases h.phase key with
  | untouched nobody started recorded entry => simp [entry, hbase] at hentry
  | owned i busy started recorded unknown entry => simp [entry] at hentry
  | inferred i busy started recorded unknown entry => simp [entry] at hentry
  | held i v busy started recorded unknown entry => simp [entry] at hentry
  | settled outcome nobody started recorded unknown entry =>
    exact (recorded value).2 (by simpa [entry] using hentry)

omit [LawfulBEq κ] [Std.LawfulEqOrd κ] [Std.TransOrd κ] in
/-- Whoever subscribed to a map that knew nothing is owed every recorded value. -/
theorem Traffic.Sound.told_of_unused (h : Sound .empty [] t) (hn : n ∈ t.listeners) :
    (noted n (t.received ++ t.pending)).Perm t.recorded := by
  have hresults : t.cache.results.Perm t.recorded := h.results
  have htold := h.told n
  simp only [owed, hn, List.not_mem_nil, if_true, if_false] at htold
  exact htold.trans hresults

end

/-- In every situation that steps lead to from an unused map: no computation of a key was begun twice;
callers of one key that have returned have the same outcome; no listener was told twice of a key, or of
one whose computation failed; and what each listener was told or is yet to be told are the recorded
values, one for each key whose computation ended with a value. -/
theorem computed_and_told_once {t : Traffic κ ε ρ} (h : Reaches (quiet .empty []) t) :
    (∀ key, t.started.count key ≤ 1) ∧
    (∀ key o o', ⟨key, .returned o⟩ ∈ t.callers → ⟨key, .returned o'⟩ ∈ t.callers → o = o') ∧
    (∀ n, ((noted n t.received).map Prod.fst).Nodup ∧
      ∀ key value, (n, key, value) ∈ t.received →
        ∀ e, t.cache.find? key ≠ some (some (.error e))) ∧
    (∀ n ∈ t.listeners, (noted n (t.received ++ t.pending)).Perm t.recorded) ∧
    (t.recorded.map Prod.fst).Nodup ∧ t.cache.results.Perm t.recorded ∧
    ∀ key value, t.cache.find? key = some (some (.ok value)) → (key, value) ∈ t.recorded := by
  have hs : Sound .empty [] t := h.sound .empty .nil
  have hdistinct : (t.recorded.map Prod.fst).Nodup := hs.recorded_once
  have hreceived (n : Nat) : noted n t.received = [] ∨
      ∃ rest, (noted n t.received ++ rest).Perm t.recorded := by
    by_cases hn : n ∈ t.listeners
    · exact .inr ⟨noted n t.pending, by simpa using hs.told_of_unused hn⟩
    · exact .inl (hs.untold hn)
  refine ⟨List.nodup_iff_count.1 hs.once, ?_, fun n => ⟨?_, ?_⟩, fun n hn => hs.told_of_unused hn,
    hdistinct, hs.results, fun key value => hs.recorded_of_ok rfl⟩
  · intro key o o' ho ho'
    obtain ⟨i, hi⟩ := List.mem_iff_getElem?.1 ho
    obtain ⟨j, hj⟩ := List.mem_iff_getElem?.1 ho'
    have heq := (hs.answered i key o hi).symm.trans (hs.answered j key o' hj)
    exact Option.some.inj (Option.some.inj heq)
  · rcases hreceived n with hnil | ⟨rest, hperm⟩
    · simp [hnil]
    · have hnodup := (hperm.map Prod.fst).nodup_iff.2 hdistinct
      rw [List.map_append] at hnodup
      exact hnodup.of_append_left
  · intro key value hmem
    have hnoted := mem_noted.2 hmem
    rcases hreceived n with hnil | ⟨rest, hperm⟩
    · simp [hnil] at hnoted
    · exact hs.not_failed (hperm.mem_iff.1 (List.mem_append_left _ hnoted))

/-- Two callers have the value of one key. The listener that subscribed while the key was computed was
told of it, the one that subscribed when the value was recorded is yet to be told. -/
def twoCallers : Traffic Nat String Nat where
  cache := ⟨[(3, some (.ok 9))], [(3, 9)]⟩
  callers := [⟨3, .returned (.ok 9)⟩, ⟨3, .returned (.ok 9)⟩]
  listeners := [0, 1]
  pending := [(1, 3, 9)]
  started := [3]
  recorded := [(3, 9)]
  received := [(0, 3, 9)]

theorem reaches_twoCallers : Reaches (quiet .empty []) twoCallers := by
  have asked := Relation.ReflTransGen.single (Step.own (t := quiet (.empty : Cache Nat String Nat) []) 3 rfl)
  have joined := (asked.tail (.join 3 rfl)).tail (.start (i := 0) rfl)
  have recorded := (joined.tail (.subscribe 0 (by decide))).tail (.record (i := 0) 9 rfl)
  have published := (recorded.tail (.subscribe 1 (by decide))).tail (.publish (i := 0) rfl)
  have told := published.tail (.deliver (show _ = [] ++ (0, 3, 9) :: [(1, 3, 9)] from rfl))
  exact (told.tail (.answer (i := 0) rfl rfl)).tail (.answer (i := 1) rfl rfl)

theorem twoCallers_told : Reaches (quiet .empty []) twoCallers ∧
    twoCallers.started.count 3 ≤ 1 ∧
    ∀ n ∈ [0, 1], (noted n (twoCallers.received ++ twoCallers.pending)).Perm [(3, 9)] :=
  have hall := computed_and_told_once reaches_twoCallers
  ⟨reaches_twoCallers, hall.1 3, hall.2.2.2.1⟩

/-- In a course without merges a map computes no key twice, and a listener is told of its results, each
once: of no others, and of all of them if no listener fails. -/
theorem unmerged_told_once {rules : List (κ → Plan κ ε ρ ρ)} {acts : List (Action κ ε ρ)} {depth : Nat}
    {w : World κ ε ρ} (hcourse : (World.ofRules rules).course depth acts = some w)
    (hacts : ∀ a b, .merge a b ∉ acts) (m : Nat) :
    (noted m w.computed).Nodup ∧ ((w.cacheOf m).results.map Prod.fst).Nodup ∧
      ∀ n ∈ w.listenersOf m, (w.told n).Subperm (w.cacheOf m).results ∧
        (w.failed = [] → (w.told n).Perm (w.cacheOf m).results) := by
  obtain ⟨t, ht⟩ := course_serves hacts hcourse m
  have hs : Sound .empty [] t := ht.sound
  rw [← ht.started, ← ht.cache, ← ht.listeners]
  refine ⟨hs.once, hs.orderly.inOrder.nodup, fun n hn => ?_⟩
  have hall : (w.told n ++ noted n t.pending).Perm t.cache.results := by
    rw [← ht.received n hn, ← noted_append]
    exact (hs.told_of_unused hn).trans hs.results.symm
  refine ⟨(List.sublist_append_left _ _).subperm.trans hall.subperm, fun hf => ?_⟩
  simpa [ht.pending hf, noted] using hall

end Hoist.Memo
