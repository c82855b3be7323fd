import Hoist.Memo.Course
import Hoist.Proofs.Memo.Steps

/-!
# Runs are traffic

What a run does on one map, by itself and through the keys and listeners that it meets on its way, is
a sequence of the steps that callers take: it leaves the world as these steps leave the map. A run
whose listeners all do their work delivers every note that it makes; a listener that fails leaves some
of them on their way for ever.
-/

namespace Hoist.Memo

variable {κ ε ρ α β : Type}

/-- A run of a step comes to an end in a world. -/
def Ends (x : Run κ ε ρ α) (w : World κ ε ρ) (r : Except ε α) (w' : World κ ε ρ) : Prop :=
  ended (x w) = some (r, w')

namespace Ends

variable {w w' : World κ ε ρ} {a : α} {r : Except ε α}

@[simp] theorem pure_iff : Ends (pure a) w r w' ↔ r = .ok a ∧ w' = w := by
  change some (Except.ok a, w) = some (r, w') ↔ _
  simp [eq_comm]

@[simp] theorem bind_iff {x : Run κ ε ρ α} {f : α → Run κ ε ρ β} {r : Except ε β} :
    Ends (x >>= f) w r w' ↔
      (∃ a v, Ends x w (.ok a) v ∧ Ends (f a) v r w') ∨ ∃ e, Ends x w (.error e) w' ∧ r = .error e := by
  simp only [Ends, ended, bind, EStateM.bind]
  rcases x w with ⟨a, v⟩ | ⟨_ | _, v⟩
  · simp
  · simp [eq_comm, and_comm]
  · simp

@[simp] theorem get_iff {r : Except ε (World κ ε ρ)} :
    Ends (get : Run κ ε ρ _) w r w' ↔ r = .ok w ∧ w' = w := by
  change some (Except.ok w, w) = some (r, w') ↔ _
  simp [eq_comm]

@[simp] theorem modify_iff {f : World κ ε ρ → World κ ε ρ} {r : Except ε Unit} :
    Ends (modify f : Run κ ε ρ _) w r w' ↔ r = .ok () ∧ w' = f w := by
  change some (Except.ok (), f w) = some (r, w') ↔ _
  simp [eq_comm]

@[simp] theorem raised_iff {e : ε} :
    Ends (throw (.raised e) : Run κ ε ρ α) w r w' ↔ r = .error e ∧ w' = w := by
  change some (Except.error e, w) = some (r, w') ↔ _
  simp [eq_comm]

@[simp] theorem not_stuck : ¬ Ends (throw .stuck : Run κ ε ρ α) w r w' := by
  change ¬ none = some (r, w')
  simp

@[simp] theorem attempt_iff {x : Run κ ε ρ α} {r : Except ε (Except ε α)} :
    Ends (Run.attempt x) w r w' ↔ ∃ o, r = .ok o ∧ Ends x w o w' := by
  simp only [Ends, ended, Run.attempt]
  rcases x w with ⟨a, v⟩ | ⟨_ | _, v⟩ <;> simp [eq_comm]

@[simp] theorem ofOutcome_iff {o : Except ε α} :
    Ends (Run.ofOutcome o : Run κ ε ρ α) w r w' ↔ r = o ∧ w' = w := by
  cases o <;> simp [Run.ofOutcome]

theorem modify_bind {f : World κ ε ρ → World κ ε ρ} {g : Unit → Run κ ε ρ α} :
    Ends (modify f >>= g) w r w' ↔ Ends (g ()) (f w) r w' :=
  .rfl

theorem get_bind {g : World κ ε ρ → Run κ ε ρ α} :
    Ends (get >>= g) w r w' ↔ Ends (g w) w r w' :=
  .rfl

theorem attempt_bind {x : Run κ ε ρ β} {g : Except ε β → Run κ ε ρ α} :
    Ends (Run.attempt x >>= g) w r w' ↔ ∃ o v, Ends x w o v ∧ Ends (g o) v r w' := by
  simp

theorem react_iff {demand : κ → Run κ ε ρ ρ} {l : Listener κ ε ρ} {key : κ} {value : ρ}
    {r : Except ε Unit} :
    Ends (Run.react demand l key value) w r w' ↔
      (r = .ok () ∧ Ends ((l.react key value).run demand) w (.ok ()) w') ∨
        ∃ e v, Ends ((l.react key value).run demand) w (.error e) v ∧ r = .error e ∧
          w' = { v with failed := v.failed ++ [(l.number, key)] } := by
  simp only [Ends, ended, Run.react]
  rcases (l.react key value).run demand w with ⟨⟨⟩, v⟩ | ⟨_ | _, v⟩ <;> simp [eq_comm]

end Ends

namespace Traffic

/-- Steps lead from one situation to another in which the callers of the first are where they were and
no new one is busy. -/
structure Leads [BEq κ] [Ord κ] (t t' : Traffic κ ε ρ) : Prop where
  steps : Reaches t t'
  callers : ∀ {i key stage}, t.At i key stage → t'.At i key stage
  busy : ∀ {i key stage}, t'.At i key stage → stage.Busy → t.At i key stage
  listeners : t'.listeners = t.listeners

variable [BEq κ] [Ord κ] {t t' t'' : Traffic κ ε ρ}

theorem Leads.refl (t : Traffic κ ε ρ) : Leads t t where
  steps := .refl
  callers h := h
  busy h _ := h
  listeners := rfl

theorem Leads.trans (h : Leads t t') (h' : Leads t' t'') : Leads t t'' where
  steps := h.steps.trans h'.steps
  callers hat := h'.callers (h.callers hat)
  busy hat hs := h.busy (h'.busy hat hs) hs
  listeners := h'.listeners.trans h.listeners

/-- A new listener is to be told all results. -/
def joined (t : Traffic κ ε ρ) (n : Nat) : Traffic κ ε ρ :=
  { t with
    listeners := t.listeners ++ [n]
    pending := t.pending ++ t.cache.results.map (n, ·) }

/-- A new caller makes the entry of its key and begins to compute it. -/
def begun (t : Traffic κ ε ρ) (key : κ) : Traffic κ ε ρ :=
  { t with
    cache := t.cache.begin key
    callers := t.callers ++ [⟨key, .infers⟩]
    started := t.started ++ [key] }

/-- A caller ends its computation with a value, which is recorded. -/
def held (t : Traffic κ ε ρ) (i : Nat) (key : κ) (value : ρ) : Traffic κ ε ρ :=
  { t.advance i key (.holds value) with
    cache := t.cache.record key value
    recorded := t.recorded ++ [(key, value)]
    pending := t.pending ++ t.listeners.map (·, key, value) }

/-- A caller ends its computation with an outcome, and waits for it like the others. -/
def concluded (t : Traffic κ ε ρ) (i : Nat) (key : κ) (outcome : Except ε ρ) : Traffic κ ε ρ :=
  match outcome with
  | .ok value => { t.advance i key .waits with
      cache := t.cache.complete key (.ok value)
      recorded := t.recorded ++ [(key, value)]
      pending := t.pending ++ t.listeners.map (·, key, value) }
  | .error e => { t.advance i key .waits with cache := t.cache.complete key (.error e) }

variable {i : Nat} {key : κ} {outcome : Except ε ρ}

omit [Ord κ] in
theorem at_begun : (t.begun key).At t.callers.length key .infers := by
  simp [At, begun]

omit [Ord κ] in
theorem moves_begun : Moves t (t.begun key) t.callers.length key .infers := .append rfl

theorem reaches_begun (h : t.cache.find? key = none) : Reaches t (t.begun key) := by
  have howns : ({ t with
      cache := t.cache.begin key
      callers := t.callers ++ [⟨key, .owns⟩] } : Traffic κ ε ρ).At t.callers.length key .owns := by
    simp [At]
  refine .tail (.single (.own key h)) ?_
  simpa [begun, advance] using Step.start howns

theorem moves_concluded (h : t.At i key .infers) :
    Moves t (t.concluded i key outcome) i key .waits := by
  cases outcome <;> exact .set h rfl

theorem reaches_concluded (h : t.At i key .infers) : Reaches t (t.concluded i key outcome) := by
  cases outcome with
  | error e => exact .single (.raise e h)
  | ok value =>
    have hmoves : Moves t (t.held i key value) i key (.holds value) := .set h rfl
    have hholds := (hmoves.at_iff i key (.holds value)).2 (.inl ⟨rfl, rfl, rfl⟩)
    refine .tail (.single (.record value h)) ?_
    simpa [held, concluded, advance, Cache.complete_ok] using Step.publish hholds

/-- A caller that begins and ends a computation is not busy afterwards, and has not been before. -/
theorem Leads.through (h : Leads (t.begun key) t') (hkey : t.cache.find? key = none) :
    Leads t (t'.concluded t.callers.length key outcome) := by
  have hinfers : t'.At t.callers.length key .infers := h.callers at_begun
  have hdone : Moves t' (t'.concluded t.callers.length key outcome) t.callers.length key .waits :=
    moves_concluded hinfers
  refine ⟨((reaches_begun hkey).trans h.steps).trans (reaches_concluded hinfers), ?_, ?_, ?_⟩
  · intro j k s hat
    -- the new caller has a number that none of the others has
    have hj : j ≠ t.callers.length := by
      rintro rfl
      simp [At] at hat
    exact (hdone.at_iff j k s).2
      (.inr ⟨hj, h.callers ((moves_begun.at_iff j k s).2 (.inr ⟨hj, hat⟩))⟩)
  · intro j k s hat hs
    rcases (hdone.at_iff j k s).1 hat with ⟨-, -, rfl⟩ | ⟨hj, hat⟩
    · exact absurd hs id
    · rcases (moves_begun.at_iff j k s).1 (h.busy hat hs) with ⟨hj', -⟩ | ⟨-, hat⟩
      · exact absurd hj' hj
      · exact hat
  · cases outcome <;> exact h.listeners

end Traffic

open Traffic

/-- A map with further listeners. -/
def Memoised.joined (map : Memoised κ ε ρ) (ls : List (Listener κ ε ρ)) : Memoised κ ε ρ :=
  { map with listeners := map.listeners ++ ls }

/-- The world in which a map has further listeners. -/
def World.joined (w : World κ ε ρ) (m : Nat) (ls : List (Listener κ ε ρ)) : World κ ε ρ :=
  { w with maps := w.maps.modify m (·.joined ls) }

/-- The world as the traffic on one of its maps leaves it, and the listeners that failed. -/
def World.behind (start : World κ ε ρ) (m cache : Nat) (t : Traffic κ ε ρ)
    (failed : List (Nat × κ)) : World κ ε ρ where
  caches := start.caches.set cache t.cache
  maps := start.maps
  computed := start.computed ++ t.started.map (m, ·)
  recorded := start.recorded ++ t.recorded.map (m, ·)
  notified := start.notified ++ t.received
  failed := start.failed ++ failed

theorem cacheOf_behind {start : World κ ε ρ} {m : Nat} {map : Memoised κ ε ρ}
    {t : Traffic κ ε ρ} {f : List (Nat × κ)} (hmap : start.maps[m]? = some map)
    (hcache : map.cache < start.caches.length) :
    (start.behind m map.cache t f).cacheOf m = t.cache := by
  simp [World.cacheOf, World.behind, hmap, hcache]

/-- A change of the cache of a map, as its traffic sees it. -/
theorem caches_behind {start : World κ ε ρ} {m cache : Nat} {t : Traffic κ ε ρ} {f : List (Nat × κ)}
    (g : Cache κ ε ρ → Cache κ ε ρ) :
    (start.behind m cache t f).caches.modify cache g = start.caches.set cache (g t.cache) := by
  refine List.ext_getElem? fun j => ?_
  by_cases hj : cache = j
  · subst hj
    by_cases hlt : cache < start.caches.length <;> simp [World.behind, hlt]
  · simp [World.behind, hj]

section Runs

variable [BEq κ] [Ord κ] (start : World κ ε ρ) (m : Nat) (map : Memoised κ ε ρ)

/-- What is behind a run in a situation where some notes are left: steps lead there, and no further
notes are left but for listeners that failed. -/
structure Left (rest : List (Nat × κ × ρ)) (t : Traffic κ ε ρ) (f : List (Nat × κ))
    (w : World κ ε ρ) (t' : Traffic κ ε ρ) (f' : List (Nat × κ)) : Prop where
  world : w = start.behind m map.cache t' (f ++ f')
  leads : Leads t t'
  pending : ∃ lost, t'.pending.Perm (lost ++ rest) ∧ (f' = [] → lost = [])

/-- Every end of a run that is to deliver some notes comes about by steps of callers. -/
def Follows (due : List (Nat × κ × ρ)) (x : Run κ ε ρ α) : Prop :=
  ∀ t f rest r w, t.listeners = map.listeners.map (·.number) → t.pending.Perm (due ++ rest) →
    Ends x (start.behind m map.cache t f) r w → ∃ t' f', Left start m map rest t f w t' f'

/-- Moreover, the run fails only with a listener. -/
def Delivers (due : List (Nat × κ × ρ)) (x : Run κ ε ρ α) : Prop :=
  ∀ t f rest r w, t.listeners = map.listeners.map (·.number) → t.pending.Perm (due ++ rest) →
    Ends x (start.behind m map.cache t f) r w →
    ∃ t' f', Left start m map rest t f w t' f' ∧ ∀ e, r = .error e → f' ≠ []

variable {start m map} {due due' rest : List (Nat × κ × ρ)} {demand : κ → Run κ ε ρ ρ}

theorem Delivers.follows {x : Run κ ε ρ α} (h : Delivers start m map due x) :
    Follows start m map due x := by
  intro t f rest r w hl hp hends
  obtain ⟨t', f', hleft, -⟩ := h t f rest r w hl hp hends
  exact ⟨t', f', hleft⟩

theorem Left.idle {t : Traffic κ ε ρ} {f : List (Nat × κ)} (hp : t.pending.Perm rest) :
    Left start m map rest t f (start.behind m map.cache t f) t [] where
  world := by rw [List.append_nil]
  leads := .refl t
  pending := ⟨[], hp, fun _ => rfl⟩

/-- Behind two runs, the notes that either left are left. -/
theorem Left.after {t t' t'' : Traffic κ ε ρ} {f f' f'' : List (Nat × κ)} {w : World κ ε ρ}
    {lost : List (Nat × κ × ρ)} (h' : Left start m map (lost ++ rest) t' (f ++ f') w t'' f'')
    (h : Leads t t') (hlost : f' = [] → lost = []) :
    Left start m map rest t f w t'' (f' ++ f'') where
  world := by rw [h'.world, List.append_assoc]
  leads := h.trans h'.leads
  pending := by
    obtain ⟨more, hp, hmore⟩ := h'.pending
    refine ⟨more ++ lost, by rwa [List.append_assoc], fun hf => ?_⟩
    obtain ⟨hf', hf''⟩ := List.append_eq_nil_iff.1 hf
    rw [hlost hf', hmore hf'', List.append_nil]

/-- Nobody is busy behind a run that began when nobody was. -/
theorem Left.resting {t t' : Traffic κ ε ρ} {f f' : List (Nat × κ)} {w : World κ ε ρ}
    (h : Left start m map rest t f w t' f') (ht : t.callers = []) : t'.Resting := by
  intro key i stage hat hbusy
  have hbefore := h.leads.busy hat hbusy
  simp [At, ht] at hbefore

/-- All notes are delivered by a run in which no listener fails. -/
theorem Left.delivered {t t' : Traffic κ ε ρ} {f f' : List (Nat × κ)} {w : World κ ε ρ}
    (h : Left start m map [] t f w t' f') (hf : f' = []) : t'.pending = [] := by
  obtain ⟨lost, hp, hlost⟩ := h.pending
  rw [hlost hf] at hp
  exact hp.eq_nil

theorem Delivers.pure (a : α) : Delivers start m map [] (pure a : Run κ ε ρ α) := by
  intro t f rest r w _ hp hends
  obtain ⟨rfl, rfl⟩ := Ends.pure_iff.1 hends
  exact ⟨t, [], .idle hp, fun e he => by cases he⟩

theorem Follows.bind {x : Run κ ε ρ α} {g : α → Run κ ε ρ β} (hx : Follows start m map [] x)
    (hg : ∀ a, Follows start m map [] (g a)) : Follows start m map [] (x >>= g) := by
  intro t f rest r w hl hp hends
  rcases Ends.bind_iff.1 hends with ⟨a, v, hx', hg'⟩ | ⟨e, hx', rfl⟩
  · obtain ⟨t₁, f₁, h₁⟩ := hx t f rest _ v hl hp hx'
    obtain ⟨lost, hp₁, hlost⟩ := h₁.pending
    rw [h₁.world] at hg'
    obtain ⟨t₂, f₂, h₂⟩ := hg a t₁ _ (lost ++ rest) r w (h₁.leads.listeners.trans hl) hp₁ hg'
    exact ⟨t₂, f₁ ++ f₂, h₂.after h₁.leads hlost⟩
  · exact hx t f rest _ w hl hp hx'

/-- What a plan does comes about by steps if what it asks for does. -/
theorem run_follows (hd : ∀ key, Follows start m map [] (demand key)) (plan : Plan κ ε ρ α) :
    Follows start m map [] (plan.run demand) := by
  induction plan with
  | done a => exact (Delivers.pure a).follows
  | fail e =>
    intro t f rest r w _ hp hends
    obtain ⟨-, rfl⟩ := Ends.raised_iff.1 hends
    exact ⟨t, [], .idle hp⟩
  | ask key next ih => exact (hd key).bind ih

theorem react_delivers (hd : ∀ key, Follows start m map [] (demand key))
    (l : Listener κ ε ρ) (key : κ) (value : ρ) :
    Delivers start m map [] (Run.react demand l key value) := by
  intro t f rest r w hl hp hends
  rcases Ends.react_iff.1 hends with ⟨rfl, hrun⟩ | ⟨e, v, hrun, rfl, rfl⟩
  · obtain ⟨t', f', hleft⟩ := run_follows hd _ t f rest _ w hl hp hrun
    exact ⟨t', f', hleft, fun e he => by cases he⟩
  · -- the listener is itself among those that failed, so whatever is lost is accounted for
    obtain ⟨t', f', hleft⟩ := run_follows hd _ t f rest _ v hl hp hrun
    obtain ⟨lost, hlost, -⟩ := hleft.pending
    refine ⟨t', f' ++ [(l.number, key)], ⟨?_, hleft.leads, lost, hlost, by simp⟩, by simp⟩
    rw [hleft.world]
    simp [World.behind]

theorem Delivers.bind {x : Run κ ε ρ α} {g : α → Run κ ε ρ β} (hx : Delivers start m map due x)
    (hg : ∀ a, Delivers start m map due' (g a)) : Delivers start m map (due ++ due') (x >>= g) := by
  intro t f rest r w hl hp hends
  rw [List.append_assoc] at hp
  rcases Ends.bind_iff.1 hends with ⟨a, v, hx', hg'⟩ | ⟨e, hx', rfl⟩
  · obtain ⟨t₁, f₁, h₁, -⟩ := hx t f _ _ v hl hp hx'
    obtain ⟨lost, hp₁, hlost⟩ := h₁.pending
    have hp₁ : t₁.pending.Perm (due' ++ (lost ++ rest)) := hp₁.trans (List.perm_append_comm_assoc ..)
    rw [h₁.world] at hg'
    obtain ⟨t₂, f₂, h₂, hblame⟩ := hg a t₁ _ _ r w (h₁.leads.listeners.trans hl) hp₁ hg'
    exact ⟨t₂, f₁ ++ f₂, h₂.after h₁.leads hlost, fun e he => by simp [hblame e he]⟩
  · -- what the second run was to deliver is lost
    obtain ⟨t₁, f₁, h₁, hblame⟩ := hx t f _ _ w hl hp hx'
    obtain ⟨lost, hp₁, hlost⟩ := h₁.pending
    have hne : f₁ ≠ [] := hblame e rfl
    exact ⟨t₁, f₁, ⟨h₁.world, h₁.leads, lost ++ due', by rwa [List.append_assoc],
      fun hf => absurd hf hne⟩, fun _ _ => hne⟩

/-- A note is delivered before its listener does anything. -/
theorem tell_delivers (hd : ∀ key, Follows start m map [] (demand key))
    (l : Listener κ ε ρ) (key : κ) (value : ρ) :
    Delivers start m map [(l.number, key, value)] (Run.tell demand key value l) := by
  intro t f rest r w hl hp hends
  obtain ⟨front, back, hsplit⟩ := List.append_of_mem (hp.mem_iff.2 List.mem_cons_self)
  let told : Traffic κ ε ρ :=
    { t with pending := front ++ back, received := t.received ++ [(l.number, key, value)] }
  have hstep : Step t told := .deliver hsplit
  have hrest : told.pending.Perm rest :=
    (List.perm_middle.symm.trans (hsplit ▸ hp)).cons_inv
  have hreact : Ends (Run.react demand l key value) (start.behind m map.cache told f) r w := by
    simpa [Run.tell, World.behind, told] using hends
  obtain ⟨t', f', hleft, hblame⟩ := react_delivers hd l key value told f rest r w hl hrest hreact
  refine ⟨t', f', ⟨hleft.world, ?_, hleft.pending⟩, hblame⟩
  exact ⟨.head hstep hleft.leads.steps, hleft.leads.callers, hleft.leads.busy, hleft.leads.listeners⟩

theorem notify_delivers (hd : ∀ key, Follows start m map [] (demand key)) (key : κ) (value : ρ)
    (ls : List (Listener κ ε ρ)) :
    Delivers start m map (ls.map fun l => (l.number, key, value))
      (Run.notify demand key value ls) := by
  induction ls with
  | nil => exact .pure ()
  | cons l rest ih => exact (tell_delivers hd l key value).bind fun _ => ih

theorem replay_delivers (hd : ∀ key, Follows start m map [] (demand key))
    (l : Listener κ ε ρ) (history : List (κ × ρ)) :
    Delivers start m map (history.map (l.number, ·)) (Run.replay demand l history) := by
  induction history with
  | nil => exact .pure ()
  | cons p rest ih => exact (tell_delivers hd l p.1 p.2).bind fun _ => ih

/-- The computation of a key comes about by the steps of a new caller, from the entry that it makes to
the outcome that it gives it. -/
theorem compute_follows (hmap : start.maps[m]? = some map)
    (hd : ∀ key, Follows start m map [] (demand key)) {key : κ} {t : Traffic κ ε ρ}
    {f : List (Nat × κ)} {r : Except ε ρ} {w : World κ ε ρ}
    (hl : t.listeners = map.listeners.map (·.number)) (hp : t.pending.Perm rest)
    (hkey : t.cache.find? key = none)
    (hends : Ends (Run.compute demand m map key) (start.behind m map.cache t f) r w) :
    ∃ t' f', Left start m map rest t f w t' f' := by
  simp only [Run.compute, Run.modifyCache, Ends.modify_bind, Ends.attempt_bind, caches_behind] at hends
  obtain ⟨outcome, v, hrule, hends⟩ := hends
  have hrule : Ends ((map.rule key).run demand) (start.behind m map.cache (t.begun key) f) outcome v := by
    simpa [World.behind, begun] using hrule
  obtain ⟨t₁, f₁, h₁⟩ := run_follows hd _ (t.begun key) f rest _ v hl hp hrule
  have hinfers : t₁.At t.callers.length key .infers := h₁.leads.callers at_begun
  rw [h₁.world, caches_behind] at hends
  have hleads : Leads t (t₁.concluded t.callers.length key outcome) := h₁.leads.through hkey
  cases outcome with
  | error e =>
    obtain ⟨-, rfl⟩ := Ends.raised_iff.1 hends
    exact ⟨_, f₁, by simp [World.behind, concluded, advance], hleads, h₁.pending⟩
  | ok value =>
    -- the notes of the value are added to those that the rule has left
    let due := map.listeners.map fun l => (l.number, key, value)
    have htold : Delivers start m map (due ++ []) (Run.notify demand key value map.listeners >>=
        fun _ => pure value) := (notify_delivers hd key value map.listeners).bind fun _ => .pure value
    obtain ⟨lost, hp₁, hlost⟩ := h₁.pending
    have hl₁ : t₁.listeners = map.listeners.map (·.number) := h₁.leads.listeners.trans hl
    have hp₂ : (t₁.concluded t.callers.length key (.ok value)).pending.Perm
        (due ++ [] ++ (lost ++ rest)) := by
      have hdue : t₁.listeners.map (·, key, value) = due := by simp [hl₁, due, Function.comp_def]
      simpa [concluded, hdue] using (hp₁.append_right due).trans List.perm_append_comm
    have hends : Ends (Run.notify demand key value map.listeners >>= fun _ => pure value)
        (start.behind m map.cache (t₁.concluded t.callers.length key (.ok value)) (f ++ f₁)) r w := by
      simp only [Run.ofOutcome, pure_bind, Ends.modify_bind, Ends.get_bind] at hends
      simpa [World.behind, concluded, advance, hmap] using hends
    obtain ⟨t₂, f₂, h₂⟩ := htold.follows _ _ _ r w (hleads.listeners.trans hl) hp₂ hends
    exact ⟨t₂, f₁ ++ f₂, h₂.after hleads hlost⟩

theorem demand_follows (hmap : start.maps[m]? = some map) (hcache : map.cache < start.caches.length)
    (depth : Nat) (key : κ) : Follows start m map [] (Run.demand depth m key) := by
  induction depth generalizing key with
  | zero =>
    intro t f rest r w _ _ hends
    exact absurd hends Ends.not_stuck
  | succ depth ih =>
    intro t f rest r w hl hp hends
    simp only [Run.demand, Ends.get_bind] at hends
    rw [show (start.behind m map.cache t f).maps[m]? = some map from hmap,
      cacheOf_behind hmap hcache] at hends
    dsimp only at hends
    cases hknown : t.cache.find? key with
    | none =>
      rw [hknown] at hends
      exact compute_follows hmap ih hl hp hknown hends
    | some known =>
      rw [hknown] at hends
      cases known with
      | none => exact absurd hends Ends.not_stuck
      | some outcome =>
        obtain ⟨-, rfl⟩ := Ends.ofOutcome_iff.1 hends
        exact ⟨t, [], .idle hp⟩

/-- A subscription is a step of its listener and the delivery of its notes. -/
theorem subscribe_follows (hmap : start.maps[m]? = some map)
    (hcache : map.cache < start.caches.length) (depth : Nat) {l : Listener κ ε ρ}
    {t : Traffic κ ε ρ} {f : List (Nat × κ)} {r : Except ε Unit} {w : World κ ε ρ}
    (hl : t.listeners = map.listeners.map (·.number)) (hp : t.pending.Perm rest)
    (hends : Ends (Run.subscribe depth m l) (start.behind m map.cache t f) r w) :
    ∃ t' f', Left (start.joined m [l]) m (map.joined [l]) rest (t.joined l.number) f w t' f' := by
  simp only [Run.subscribe, Ends.get_bind, Ends.modify_bind, cacheOf_behind hmap hcache] at hends
  have hmap' : (start.joined m [l]).maps[m]? = some (map.joined [l]) := by simp [World.joined, hmap]
  have hd := demand_follows hmap' hcache depth
  have hl' : (t.joined l.number).listeners = (map.joined [l]).listeners.map (·.number) := by
    simp [Traffic.joined, Memoised.joined, hl]
  have hp' : (t.joined l.number).pending.Perm (t.cache.results.map (l.number, ·) ++ rest) :=
    (hp.append_right _).trans List.perm_append_comm
  exact (replay_delivers hd l t.cache.results).follows _ f rest r w hl' hp' hends

end Runs

end Hoist.Memo
