import Mathlib.Data.List.Perm.Basic
import Hoist.Proofs.Memo.Caches

/-!
# What the steps of callers keep

Whatever the order of the steps, a key that the map did not know has at most one caller that is busy
with it, and as long as there is one its entry has no outcome. So a key is computed once, its outcome
never changes, and its value is recorded once. A value that is recorded and the notes of it come in
one step, as do a subscription and its notes of the results; so each listener has received or is to
receive one note of each value.
-/

namespace Hoist.Memo

variable {κ ε ρ : Type}

section Notes

variable {α : Type} {n m : Nat} {a : α} {notes more : List (Nat × α)} {ls : List Nat} {as : List α}

@[simp] theorem noted_append : noted n (notes ++ more) = noted n notes ++ noted n more :=
  List.filterMap_append

theorem noted_perm (h : notes.Perm more) : (noted n notes).Perm (noted n more) :=
  h.filterMap _

theorem mem_noted : a ∈ noted n notes ↔ (n, a) ∈ notes := by
  simp only [noted, List.mem_filterMap, Option.ite_none_right_eq_some, Option.some.injEq]
  constructor
  · rintro ⟨⟨_, b⟩, hmem, rfl, rfl⟩
    exact hmem
  · intro hmem
    exact ⟨_, hmem, rfl, rfl⟩

/-- Of a note to each listener, each listener gets its own. -/
theorem noted_each (h : ls.Nodup) : noted n (ls.map (·, a)) = if n ∈ ls then [a] else [] := by
  induction ls with
  | nil => rfl
  | cons l rest ih =>
    obtain ⟨hfresh, hrest⟩ := List.nodup_cons.1 h
    have hstep : noted n ((l :: rest).map (·, a)) =
        (if l = n then [a] else []) ++ noted n (rest.map (·, a)) := by
      by_cases hl : l = n <;> simp [noted, hl]
    rw [hstep, ih hrest]
    by_cases hl : l = n
    · subst hl
      simp [hfresh]
    · simp [hl, Ne.symm hl]

theorem noted_all : noted n (as.map (m, ·)) = if n = m then as else [] := by
  by_cases h : n = m
  · subst h
    simp [noted]
  · simp [noted, h, Ne.symm h]

end Notes

namespace Traffic

/-- The caller with a number, its key and how far it has come. -/
def At (t : Traffic κ ε ρ) (i : Nat) (key : κ) (stage : Stage ε ρ) : Prop :=
  t.callers[i]? = some ⟨key, stage⟩

/-- Nobody is busy with a key. -/
def Idle (t : Traffic κ ε ρ) (key : κ) : Prop := ∀ i stage, t.At i key stage → ¬ stage.Busy

/-- One caller alone is busy with a key. -/
structure BusyBy (t : Traffic κ ε ρ) (key : κ) (i : Nat) (stage : Stage ε ρ) : Prop where
  here : t.At i key stage
  alone : ∀ j s, t.At j key s → s.Busy → j = i

/-- A caller of a key has come to a stage, and the others are where they were. -/
structure Moves (t u : Traffic κ ε ρ) (i : Nat) (key : κ) (stage : Stage ε ρ) : Prop where
  at_iff : ∀ j k s, u.At j k s ↔ (j = i ∧ k = key ∧ s = stage) ∨ (j ≠ i ∧ t.At j k s)
  own : ∀ k s, t.At i k s → k = key

variable {t u : Traffic κ ε ρ} {i j : Nat} {key k : κ} {stage s : Stage ε ρ}

theorem At.unique (h : t.At i key stage) (h' : t.At i k s) : k = key ∧ s = stage := by
  have heq := h.symm.trans h'
  simp_all

theorem BusyBy.of_at (h : t.BusyBy key j stage) (hat : t.At i key s) (hs : s.Busy) :
    j = i ∧ stage = s := by
  obtain rfl := h.alone i s hat hs
  exact ⟨rfl, (At.unique hat h.here).2⟩

theorem Moves.append (h : u.callers = t.callers ++ [⟨key, stage⟩]) :
    Moves t u t.callers.length key stage where
  at_iff j k s := by
    simp only [At, h, List.getElem?_append]
    rcases Nat.lt_trichotomy j t.callers.length with hj | rfl | hj
    · simp [hj, Nat.ne_of_lt hj]
    · simp [eq_comm]
    · have hout : j - t.callers.length ≠ 0 := by omega
      simp [hout, Nat.le_of_lt hj, Nat.ne_of_gt hj]
  own k s hat := by simp [At] at hat

theorem Moves.set (h : t.At i key s) (hu : u.callers = t.callers.set i ⟨key, stage⟩) :
    Moves t u i key stage where
  at_iff j k s := by
    obtain ⟨hlt, -⟩ := List.getElem?_eq_some_iff.1 h
    simp only [At, hu, List.getElem?_set]
    by_cases hj : i = j
    · subst hj
      simp [hlt, eq_comm]
    · simp [hj, Ne.symm hj]
  own k s hat := (At.unique h hat).1

/-- Callers of other keys do not notice. -/
theorem Moves.elsewhere (h : Moves t u i key stage) (hk : k ≠ key) : u.At j k s ↔ t.At j k s := by
  rw [h.at_iff]
  constructor
  · rintro (⟨-, rfl, -⟩ | ⟨-, hat⟩)
    · exact absurd rfl hk
    · exact hat
  · intro hat
    refine .inr ⟨?_, hat⟩
    rintro rfl
    exact hk (h.own k s hat)

/-- Who comes from rest to rest does not matter to who is busy. -/
theorem Moves.resting (h : Moves t u i key stage) (hstage : ¬ stage.Busy)
    (hbefore : ∀ s, t.At i key s → ¬ s.Busy) (hs : s.Busy) : u.At j k s ↔ t.At j k s := by
  rw [h.at_iff]
  constructor
  · rintro (⟨-, -, rfl⟩ | ⟨-, hat⟩)
    · exact absurd hs hstage
    · exact hat
  · intro hat
    refine .inr ⟨?_, hat⟩
    rintro rfl
    exact hbefore s (h.own k s hat ▸ hat) hs

theorem Moves.busy (h : Moves t u i key stage) (hrest : ∀ j s, t.At j key s → s.Busy → j = i) :
    BusyBy u key i stage where
  here := (h.at_iff i key stage).2 (.inl ⟨rfl, rfl, rfl⟩)
  alone j s hat hs := by
    rcases (h.at_iff j key s).1 hat with ⟨rfl, -⟩ | ⟨-, hat⟩
    · rfl
    · exact hrest j s hat hs

theorem Moves.idle (h : Moves t u i key stage) (hstage : ¬ stage.Busy)
    (hrest : ∀ j s, t.At j key s → s.Busy → j = i) : Idle u key := by
  intro j s hat hs
  rcases (h.at_iff j key s).1 hat with ⟨-, -, rfl⟩ | ⟨hj, hat⟩
  · exact hstage hs
  · exact hj (hrest j s hat hs)

end Traffic

variable [BEq κ]

namespace Traffic

/-- How far a key has come on a map that knew a cache before anybody turned to it. -/
inductive Phase (base : Cache κ ε ρ) (t : Traffic κ ε ρ) (key : κ) : Prop
  | untouched (nobody : t.Idle key) (started : t.started.count key = 0)
      (recorded : ∀ v, (key, v) ∉ t.recorded) (entry : t.cache.find? key = base.find? key)
  | owned (i : Nat) (busy : t.BusyBy key i .owns) (started : t.started.count key = 0)
      (recorded : ∀ v, (key, v) ∉ t.recorded) (unknown : base.find? key = none)
      (entry : t.cache.find? key = some none)
  | inferred (i : Nat) (busy : t.BusyBy key i .infers) (started : t.started.count key = 1)
      (recorded : ∀ v, (key, v) ∉ t.recorded) (unknown : base.find? key = none)
      (entry : t.cache.find? key = some none)
  | held (i : Nat) (value : ρ) (busy : t.BusyBy key i (.holds value))
      (started : t.started.count key = 1)
      (recorded : ∀ v, (key, v) ∈ t.recorded ↔ v = value) (unknown : base.find? key = none)
      (entry : t.cache.find? key = some none)
  | settled (outcome : Except ε ρ) (nobody : t.Idle key) (started : t.started.count key = 1)
      (recorded : ∀ v, (key, v) ∈ t.recorded ↔ outcome = .ok v) (unknown : base.find? key = none)
      (entry : t.cache.find? key = some (some outcome))

variable {base : Cache κ ε ρ} {listeners : List Nat} {t u : Traffic κ ε ρ} {i : Nat} {key k : κ}
  {value : ρ} {stage s : Stage ε ρ}

theorem Phase.quiet : Phase base (quiet base listeners) key :=
  .untouched (fun i s hat => by simp [At, Traffic.quiet] at hat) rfl (fun _ => List.not_mem_nil) rfl

/-- A key stays in its phase as long as nobody becomes or ceases to be busy with it. -/
theorem Phase.congr (h : Phase base t k) (hat : ∀ j s, s.Busy → (u.At j k s ↔ t.At j k s))
    (hstarted : u.started.count k = t.started.count k)
    (hrecorded : ∀ v, (k, v) ∈ u.recorded ↔ (k, v) ∈ t.recorded)
    (hentry : u.cache.find? k = t.cache.find? k) : Phase base u k := by
  have idle (hi : t.Idle k) : u.Idle k := fun j s ha hs => hi j s ((hat j s hs).1 ha) hs
  have busy {i s} (hb : t.BusyBy k i s) (hs : s.Busy) : u.BusyBy k i s :=
    ⟨(hat i s hs).2 hb.here, fun j s' ha hs' => hb.alone j s' ((hat j s' hs').1 ha) hs'⟩
  cases h with
  | untouched nobody started recorded entry =>
    exact .untouched (idle nobody) (hstarted.trans started)
      (fun v => mt (hrecorded v).1 (recorded v)) (hentry.trans entry)
  | owned i by_ started recorded unknown entry =>
    exact .owned i (busy by_ trivial) (hstarted.trans started)
      (fun v => mt (hrecorded v).1 (recorded v)) unknown (hentry.trans entry)
  | inferred i by_ started recorded unknown entry =>
    exact .inferred i (busy by_ trivial) (hstarted.trans started)
      (fun v => mt (hrecorded v).1 (recorded v)) unknown (hentry.trans entry)
  | held i value by_ started recorded unknown entry =>
    exact .held i value (busy by_ trivial) (hstarted.trans started)
      (fun v => (hrecorded v).trans (recorded v)) unknown (hentry.trans entry)
  | settled outcome nobody started recorded unknown entry =>
    exact .settled outcome (idle nobody) (hstarted.trans started)
      (fun v => (hrecorded v).trans (recorded v)) unknown (hentry.trans entry)

/-- What is known of a key that a caller has not begun to compute. -/
theorem Phase.of_owns (h : Phase base t key) (hat : t.At i key .owns) :
    t.BusyBy key i .owns ∧ t.started.count key = 0 ∧ (∀ v, (key, v) ∉ t.recorded) ∧
      base.find? key = none ∧ t.cache.find? key = some none := by
  cases h with
  | owned j busy started recorded unknown entry =>
    obtain ⟨rfl, -⟩ := busy.of_at hat trivial
    exact ⟨busy, started, recorded, unknown, entry⟩
  | untouched nobody => exact absurd trivial (nobody i _ hat)
  | inferred j busy => cases (busy.of_at hat trivial).2
  | held j value busy => cases (busy.of_at hat trivial).2
  | settled outcome nobody => exact absurd trivial (nobody i _ hat)

/-- What is known of a key that is being computed. -/
theorem Phase.of_infers (h : Phase base t key) (hat : t.At i key .infers) :
    t.BusyBy key i .infers ∧ t.started.count key = 1 ∧ (∀ v, (key, v) ∉ t.recorded) ∧
      base.find? key = none ∧ t.cache.find? key = some none := by
  cases h with
  | inferred j busy started recorded unknown entry =>
    obtain ⟨rfl, -⟩ := busy.of_at hat trivial
    exact ⟨busy, started, recorded, unknown, entry⟩
  | untouched nobody => exact absurd trivial (nobody i _ hat)
  | owned j busy => cases (busy.of_at hat trivial).2
  | held j value busy => cases (busy.of_at hat trivial).2
  | settled outcome nobody => exact absurd trivial (nobody i _ hat)

/-- What is known of a key whose value is recorded but not yet the outcome of its entry. -/
theorem Phase.of_holds (h : Phase base t key) (hat : t.At i key (.holds value)) :
    t.BusyBy key i (.holds value) ∧ t.started.count key = 1 ∧
      (∀ v, (key, v) ∈ t.recorded ↔ v = value) ∧ base.find? key = none ∧
      t.cache.find? key = some none := by
  cases h with
  | held j v busy started recorded unknown entry =>
    obtain ⟨rfl, heq⟩ := busy.of_at hat trivial
    cases heq
    exact ⟨busy, started, recorded, unknown, entry⟩
  | untouched nobody => exact absurd trivial (nobody i _ hat)
  | owned j busy => cases (busy.of_at hat trivial).2
  | inferred j busy => cases (busy.of_at hat trivial).2
  | settled outcome nobody => exact absurd trivial (nobody i _ hat)

variable [LawfulBEq κ] [Ord κ]

/-- A step takes the key of its caller to the next phase, and leaves the other keys in theirs. -/
theorem Phase.step (h : ∀ k, Phase base t k) (hs : Step t u) (k : κ) : Phase base u k := by
  cases hs with
  | join key hkey =>
    have hm : Moves t { t with callers := t.callers ++ [⟨key, .waits⟩] } _ key .waits := .append rfl
    exact (h k).congr (fun j s hs => hm.resting id (fun s hat => by simp [At] at hat) hs)
      rfl (fun _ => .rfl) rfl
  | own key hnone =>
    have hm : Moves t { t with cache := t.cache.begin key, callers := t.callers ++ [⟨key, .owns⟩] }
      _ key .owns := .append rfl
    by_cases hk : k = key
    · subst hk
      cases h k with
      | untouched nobody started recorded entry =>
        exact .owned _ (hm.busy fun j s hat hs => absurd hs (nobody j s hat)) started recorded
          (entry.symm.trans hnone) (by simp)
      | owned i busy started recorded unknown entry => cases hnone.symm.trans entry
      | inferred i busy started recorded unknown entry => cases hnone.symm.trans entry
      | held i value busy started recorded unknown entry => cases hnone.symm.trans entry
      | settled outcome nobody started recorded unknown entry => cases hnone.symm.trans entry
    · exact (h k).congr (fun j s _ => hm.elsewhere hk) rfl (fun _ => .rfl) (by simp [hk])
  | @start i key hat =>
    have hm : Moves t { t.advance i key .infers with started := t.started ++ [key] } i key .infers :=
      .set hat rfl
    by_cases hk : k = key
    · subst hk
      obtain ⟨busy, started, recorded, unknown, entry⟩ := (h k).of_owns hat
      exact .inferred i (hm.busy busy.alone) (by simp [started]) recorded unknown entry
    · exact (h k).congr (fun j s _ => hm.elsewhere hk) (by simp [Ne.symm hk])
        (fun _ => .rfl) rfl
  | @record i key value hat =>
    have hm : Moves t { t.advance i key (.holds value) with
        cache := t.cache.record key value
        recorded := t.recorded ++ [(key, value)]
        pending := t.pending ++ t.listeners.map (·, key, value) } i key (.holds value) := .set hat rfl
    by_cases hk : k = key
    · subst hk
      obtain ⟨busy, started, recorded, unknown, entry⟩ := (h k).of_infers hat
      exact .held i value (hm.busy busy.alone) started (fun v => by simp [recorded]) unknown entry
    · exact (h k).congr (fun j s _ => hm.elsewhere hk) rfl (fun v => by simp [hk]) rfl
  | @publish i key value hat =>
    have hm : Moves t { t.advance i key .waits with cache := t.cache.settle key (.ok value) }
      i key .waits := .set hat rfl
    by_cases hk : k = key
    · subst hk
      obtain ⟨busy, started, recorded, unknown, entry⟩ := (h k).of_holds hat
      exact .settled (.ok value) (hm.idle id busy.alone) started
        (fun v => (recorded v).trans (by simp [eq_comm])) unknown (by simp)
    · exact (h k).congr (fun j s _ => hm.elsewhere hk) rfl (fun _ => .rfl) (by simp [hk])
  | @raise i key e hat =>
    have hm : Moves t { t.advance i key .waits with cache := t.cache.settle key (.error e) }
      i key .waits := .set hat rfl
    by_cases hk : k = key
    · subst hk
      obtain ⟨busy, started, recorded, unknown, entry⟩ := (h k).of_infers hat
      exact .settled (.error e) (hm.idle id busy.alone) started
        (fun v => by simpa [advance] using recorded v) unknown (by simp)
    · exact (h k).congr (fun j s _ => hm.elsewhere hk) rfl (fun _ => .rfl) (by simp [hk])
  | @answer i key outcome hat known =>
    have hm : Moves t (t.advance i key (.returned outcome)) i key (.returned outcome) :=
      .set hat rfl
    have hrest (s) (hs : t.At i key s) : ¬ s.Busy := by
      obtain rfl := (At.unique hat hs).2
      exact id
    exact (h k).congr (fun j s hs => hm.resting id hrest hs) rfl (fun _ => .rfl) rfl
  | subscribe n hn => exact (h k).congr (fun _ _ _ => .rfl) rfl (fun _ => .rfl) rfl
  | deliver hpending => exact (h k).congr (fun _ _ _ => .rfl) rfl (fun _ => .rfl) rfl

/-- An entry that has an outcome keeps it. -/
theorem Step.keeps {outcome : Except ε ρ} (hs : Step t u) (h : ∀ k, Phase base t k)
    (hk : t.cache.find? k = some (some outcome)) : u.cache.find? k = some (some outcome) := by
  have unlike {key} (hkey : t.cache.find? key ≠ some (some outcome)) : k ≠ key :=
    fun he => hkey (he ▸ hk)
  cases hs with
  | own key hnone =>
    have hne : k ≠ key := unlike (by simp [hnone])
    simpa [hne] using hk
  | @publish i key value hat =>
    obtain ⟨-, -, -, -, entry⟩ := (h key).of_holds hat
    have hne : k ≠ key := unlike (by simp [entry])
    simpa [hne] using hk
  | @raise i key e hat =>
    obtain ⟨-, -, -, -, entry⟩ := (h key).of_infers hat
    have hne : k ≠ key := unlike (by simp [entry])
    simpa [hne] using hk
  | join | start | record | answer | subscribe | deliver => exact hk

/-- What a listener is owed: the values recorded since it subscribed and the results before that,
which it already has if it was there before anybody turned to the map. -/
def owed (t : Traffic κ ε ρ) (present : List Nat) (n : Nat) : List (κ × ρ) :=
  if n ∈ t.listeners then if n ∈ present then t.recorded else t.cache.results else []

/-- What holds of a map in use, whatever the order of the steps. -/
structure Sound (base : Cache κ ε ρ) (present : List Nat) (t : Traffic κ ε ρ) : Prop where
  phase : ∀ key, Phase base t key
  answered : ∀ i key outcome, t.At i key (.returned outcome) →
    t.cache.find? key = some (some outcome)
  orderly : t.cache.Orderly
  results : t.cache.results.Perm (base.results ++ t.recorded)
  apart : t.listeners.Nodup
  stayed : ∀ n ∈ present, n ∈ t.listeners
  told : ∀ n, (noted n (t.received ++ t.pending)).Perm (t.owed present n)

omit [LawfulBEq κ] in
theorem Sound.quiet (hbase : base.Orderly) (h : listeners.Nodup) :
    Sound base listeners (quiet base listeners) where
  phase key := .quiet
  answered i key outcome hat := by simp [At, Traffic.quiet] at hat
  orderly := hbase
  results := by simp [Traffic.quiet]
  apart := h
  stayed n hn := hn
  told n := by
    by_cases hn : n ∈ listeners <;> simp [Traffic.quiet, owed, noted, hn]

variable {present : List Nat}

/-- Nobody is busy with any key. -/
def Resting (t : Traffic κ ε ρ) : Prop := ∀ key, t.Idle key

omit [LawfulBEq κ] in
/-- What the map knew stays as it was. -/
theorem Sound.kept (h : Sound base present t) {known : Option (Except ε ρ)}
    (hk : base.find? key = some known) : t.cache.find? key = some known := by
  cases h.phase key with
  | untouched nobody started recorded entry => exact entry.trans hk
  | owned i busy started recorded unknown => cases unknown.symm.trans hk
  | inferred i busy started recorded unknown => cases unknown.symm.trans hk
  | held i value busy started recorded unknown => cases unknown.symm.trans hk
  | settled outcome nobody started recorded unknown => cases unknown.symm.trans hk

/-- No key is computed twice. -/
theorem Sound.once (h : Sound base present t) : t.started.Nodup := by
  refine List.nodup_iff_count.2 fun key => ?_
  cases h.phase key <;> omega

/-- Only a key that the map did not know is computed. -/
theorem Sound.unknown (h : Sound base present t) (hk : key ∈ t.started) : base.find? key = none := by
  cases h.phase key with
  | untouched nobody started => exact absurd hk (List.count_eq_zero.1 started)
  | owned i busy started => exact absurd hk (List.count_eq_zero.1 started)
  | inferred i busy started recorded unknown => exact unknown
  | held i value busy started recorded unknown => exact unknown
  | settled outcome nobody started recorded unknown => exact unknown

/-- Once nobody is busy, a key is either as it was or was computed and has its outcome. -/
theorem Sound.at_rest (h : Sound base present t) (hr : t.Resting) (key : κ) :
    (key ∉ t.started ∧ (∀ v, (key, v) ∉ t.recorded) ∧ t.cache.find? key = base.find? key) ∨
      ∃ outcome, key ∈ t.started ∧ (∀ v, (key, v) ∈ t.recorded ↔ outcome = .ok v) ∧
        base.find? key = none ∧ t.cache.find? key = some (some outcome) := by
  cases h.phase key with
  | untouched nobody started recorded entry =>
    exact .inl ⟨List.count_eq_zero.1 started, recorded, entry⟩
  | owned i busy => exact absurd trivial (hr key i _ busy.here)
  | inferred i busy => exact absurd trivial (hr key i _ busy.here)
  | held i value busy => exact absurd trivial (hr key i _ busy.here)
  | settled outcome nobody started recorded unknown entry =>
    exact .inr ⟨outcome, List.one_le_count_iff.1 (Nat.le_of_eq started.symm), recorded, unknown, entry⟩

omit [LawfulBEq κ] in
/-- Only listeners are told of anything. -/
theorem Sound.untold (h : Sound base present t) {n : Nat} (hn : n ∉ t.listeners) :
    noted n t.received = [] := by
  have htold := h.told n
  simp only [owed, hn, if_false, List.perm_nil, noted_append, List.append_eq_nil_iff] at htold
  exact htold.1

omit [LawfulBEq κ] in
/-- Each key has one value at most that was recorded. -/
theorem Sound.recorded_once [Std.LawfulEqOrd κ] (h : Sound base present t) :
    ((base.results ++ t.recorded).map Prod.fst).Nodup :=
  (h.results.map Prod.fst).nodup_iff.1 h.orderly.inOrder.nodup

theorem Sound.answered_step (h : Sound base present t) (hs : Step t u) {outcome : Except ε ρ}
    (hat : u.At i key (.returned outcome)) : u.cache.find? key = some (some outcome) := by
  have before {j : Nat} {k : κ} {s : Stage ε ρ} (hm : Moves t u j k s)
      (hs' : s ≠ .returned outcome) : u.cache.find? key = some (some outcome) := by
    rcases (hm.at_iff i key _).1 hat with ⟨-, -, rfl⟩ | ⟨-, hat⟩
    · exact absurd rfl hs'
    · exact hs.keeps h.phase (h.answered i key outcome hat)
  cases hs with
  | join => exact before (.append rfl) (by simp)
  | own => exact before (.append rfl) (by simp)
  | start hcaller => exact before (.set hcaller rfl) (by simp)
  | record value hcaller => exact before (.set hcaller rfl) (by simp)
  | publish hcaller => exact before (.set hcaller rfl) (by simp)
  | raise e hcaller => exact before (.set hcaller rfl) (by simp)
  | answer hcaller known =>
    rcases ((Moves.set hcaller rfl).at_iff i key _).1 hat with ⟨-, rfl, heq⟩ | ⟨-, hat⟩
    · cases heq
      exact known
    · exact h.answered i key outcome hat
  | subscribe => exact h.answered i key outcome hat
  | deliver => exact h.answered i key outcome hat

omit [LawfulBEq κ] in
/-- A key that is being computed has no result yet. -/
theorem Sound.unrecorded (h : Sound base present t) (hbase : base.Orderly)
    (hat : t.At i key .infers) : key ∉ t.cache.results.map Prod.fst := by
  obtain ⟨-, -, recorded, unknown, -⟩ := (h.phase key).of_infers hat
  rintro hmem
  obtain ⟨⟨k, v⟩, hkv, rfl⟩ := List.mem_map.1 hmem
  rcases List.mem_append.1 (h.results.mem_iff.1 hkv) with hold | hnew
  · exact hbase.known _ hold unknown
  · exact recorded v hnew

variable [Std.LawfulEqOrd κ]

omit [LawfulBEq κ] in
/-- The result of a key that is being computed is put among the others. -/
theorem Sound.results_record (h : Sound base present t) (hbase : base.Orderly)
    (hat : t.At i key .infers) :
    (t.cache.record key value).results.Perm (t.cache.results ++ [(key, value)]) :=
  (insertSorted_perm (h.unrecorded hbase hat)).trans (List.perm_append_singleton _ _).symm

omit [LawfulBEq κ] in
/-- What a listener is told and what it is owed grow together. -/
theorem Sound.told_step (h : Sound base present t) (hbase : base.Orderly) (hs : Step t u)
    (n : Nat) : (noted n (u.received ++ u.pending)).Perm (u.owed present n) := by
  cases hs with
  | @record i key value hat =>
    have hgrows : (noted n (t.received ++ (t.pending ++ t.listeners.map (·, key, value)))).Perm
        (t.owed present n ++ if n ∈ t.listeners then [(key, value)] else []) := by
      rw [← List.append_assoc, noted_append, noted_each h.apart]
      exact (h.told n).append_right _
    refine hgrows.trans ?_
    simp only [owed, advance]
    by_cases hn : n ∈ t.listeners
    · by_cases hp : n ∈ present
      · simp [hn, hp]
      · simpa [hn, hp] using (h.results_record hbase hat).symm
    · simp [hn]
  | subscribe m hm =>
    have hgrows : (noted n (t.received ++ (t.pending ++ t.cache.results.map (m, ·)))).Perm
        (t.owed present n ++ if n = m then t.cache.results else []) := by
      rw [← List.append_assoc, noted_append, noted_all]
      exact (h.told n).append_right _
    refine hgrows.trans ?_
    by_cases hn : n = m
    · subst hn
      simp [owed, hm, mt (h.stayed n) hm]
    · simp [owed, hn]
  | @deliver note front back hpending =>
    refine (noted_perm ?_).trans (h.told n)
    simpa [hpending] using List.perm_middle.symm.append_left t.received
  | join | own | start | publish | raise | answer => exact h.told n

variable [Std.TransOrd κ]

theorem Sound.step (h : Sound base present t) (hbase : base.Orderly) (hs : Step t u) :
    Sound base present u where
  phase := Phase.step h.phase hs
  answered i key outcome hat := h.answered_step hs hat
  orderly := by
    cases hs with
    | own => exact h.orderly.begin
    | @record i key value hat =>
      obtain ⟨-, -, -, -, entry⟩ := (h.phase key).of_infers hat
      exact h.orderly.record (by simp [entry])
    | publish => exact h.orderly.settle
    | raise => exact h.orderly.settle
    | join | start | answer | subscribe | deliver => exact h.orderly
  results := by
    cases hs with
    | @record i key value hat =>
      refine (h.results_record hbase hat).trans ?_
      rw [← List.append_assoc]
      exact h.results.append_right _
    | join | own | start | publish | raise | answer | subscribe | deliver => exact h.results
  apart := by
    cases hs with
    | subscribe n hn =>
      have hnew := h.apart.concat hn
      rwa [List.concat_eq_append] at hnew
    | join | own | start | record | publish | raise | answer | deliver => exact h.apart
  stayed n hn := by
    cases hs with
    | subscribe => exact List.mem_append_left _ (h.stayed n hn)
    | join | own | start | record | publish | raise | answer | deliver => exact h.stayed n hn
  told := h.told_step hbase hs

/-- What holds of every situation that the steps lead to. -/
theorem Reaches.sound (hbase : base.Orderly) (hapart : listeners.Nodup)
    (h : Reaches (Traffic.quiet base listeners) t) : Sound base listeners t := by
  induction h with
  | refl => exact .quiet hbase hapart
  | tail _ hs ih => exact ih.step hbase hs

end Traffic

end Hoist.Memo
