import Hoist.Memo.Course
import Hoist.Proofs.Memo.Runs

/-!
# Worlds

A call or a subscription at a map runs the traffic on that map from the cache it points to: this cache
changes as the steps say, for all maps that point to it, and nothing else does. A merge lets one map
point to the cache of the other.
-/

namespace Hoist.Memo

open Traffic

variable {κ ε ρ : Type}

namespace World

variable {w : World κ ε ρ} {m x y : Nat} {ls : List (Listener κ ε ρ)}

theorem Share.symm (h : w.Share x y) : w.Share y x := by
  obtain ⟨c, hx, hy⟩ := h
  exact ⟨c, hy, hx⟩

theorem Share.trans {z : Nat} (h : w.Share x y) (h' : w.Share y z) : w.Share x z := by
  obtain ⟨c, hx, hy⟩ := h
  obtain ⟨d, hy', hz⟩ := h'
  obtain rfl : c = d := Option.some.inj (hy.symm.trans hy')
  exact ⟨c, hx, hz⟩

/-- The cache of a map is where its pointer says. -/
theorem cacheOf_eq : w.cacheOf x = (w.pointer x).elim .empty fun c => w.caches[c]?.getD .empty := by
  cases hx : w.maps[x]? <;> simp [cacheOf, pointer, hx]

theorem cacheOf_of_pointer {c : Nat} (h : w.pointer x = some c) :
    w.cacheOf x = w.caches[c]?.getD .empty := by
  rw [cacheOf_eq, h]
  rfl

theorem Share.cacheOf_eq (h : w.Share x y) : w.cacheOf x = w.cacheOf y := by
  obtain ⟨c, hx, hy⟩ := h
  rw [cacheOf_of_pointer hx, cacheOf_of_pointer hy]

/-- The cache of a map that points elsewhere does not change with another one. -/
theorem cacheOf_set {w' : World κ ε ρ} {c : Nat} {cache : Cache κ ε ρ}
    (hcaches : w'.caches = w.caches.set c cache) (hpointer : w'.pointer x = w.pointer x)
    (hx : w.pointer x ≠ some c) : w'.cacheOf x = w.cacheOf x := by
  rw [World.cacheOf_eq, World.cacheOf_eq, hpointer, hcaches]
  cases hp : w.pointer x with
  | none => rfl
  | some d =>
    have hne : c ≠ d := fun he => hx (he ▸ hp)
    simp [hne]

theorem pointer_of_map {map : Memoised κ ε ρ} (hmap : w.maps[m]? = some map) :
    w.pointer m = some map.cache := by
  simp [pointer, hmap]

theorem listenersOf_of_map {map : Memoised κ ε ρ} (hmap : w.maps[m]? = some map) :
    w.listenersOf m = map.listeners.map (·.number) := by
  simp [listenersOf, hmap]

theorem mem_numbers {n : Nat} (h : n ∈ w.listenersOf m) : n ∈ w.numbers := by
  unfold listenersOf at h
  cases hm : w.maps[m]? with
  | none => simp [hm] at h
  | some map => exact List.mem_flatMap.2 ⟨map, List.mem_of_getElem? hm, by simpa [hm] using h⟩

theorem lt_of_pointer {c : Nat} (h : w.pointer m = some c) : m < w.maps.length := by
  simp only [pointer, Option.map_eq_some_iff] at h
  obtain ⟨map, hmap, -⟩ := h
  exact (List.getElem?_eq_some_iff.1 hmap).1

theorem share_self (h : m < w.maps.length) : w.Share m m := by
  simp [Share, pointer, h]

@[simp] theorem joined_nil : w.joined m [] = w := by
  have hid : (fun map : Memoised κ ε ρ => map.joined []) = id := by
    funext map
    simp [Memoised.joined]
  simp [joined, hid]

@[simp] theorem pointer_joined : (w.joined m ls).pointer x = w.pointer x := by
  by_cases h : m = x
  · subst h
    cases hm : w.maps[m]? <;> simp [pointer, joined, Memoised.joined, hm]
  · simp [pointer, joined, h]

theorem listenersOf_joined (h : m < w.maps.length) :
    (w.joined m ls).listenersOf x =
      if x = m then w.listenersOf m ++ ls.map (·.number) else w.listenersOf x := by
  by_cases hx : x = m
  · subst hx
    simp [listenersOf, joined, Memoised.joined, h]
  · simp [listenersOf, joined, hx, Ne.symm hx]

/-- The elements that come with a change of one element come in addition to the others. -/
theorem flatMap_modify_perm {α β : Type} {l : List α} {i : Nat} {a : α} {f : α → List β} {g : α → α}
    {bs : List β} (h : l[i]? = some a) (hg : f (g a) = f a ++ bs) :
    ((l.modify i g).flatMap f).Perm (l.flatMap f ++ bs) := by
  induction l generalizing i with
  | nil => simp at h
  | cons b rest ih =>
    cases i with
    | zero =>
      obtain rfl : b = a := by simpa using h
      simpa [hg] using List.perm_append_comm.append_left (f b)
    | succ i => simpa using (ih (by simpa using h)).append_left (f b)

theorem numbers_joined {map : Memoised κ ε ρ} (h : w.maps[m]? = some map) :
    (w.joined m ls).numbers.Perm (w.numbers ++ ls.map (·.number)) :=
  flatMap_modify_perm h (by simp [Memoised.joined])

end World

variable [BEq κ] [Ord κ]

/-- What holds of the worlds of a course: pointers are in place, what the maps know is orderly and
nothing is being computed, and listeners are numbered. -/
structure World.Fit (w : World κ ε ρ) : Prop where
  placed : ∀ m c, w.pointer m = some c → c < w.caches.length
  orderly : ∀ m, (w.cacheOf m).Orderly
  settled : ∀ m key, (w.cacheOf m).find? key ≠ some none
  numbered : w.numbers.Perm (List.range w.numbers.length)
  heard : ∀ note ∈ w.notified, note.1 ∈ w.numbers

/-- What a call or a subscription at a map does when it comes to its end: from what the map knows,
steps lead to the traffic that the world is left behind. -/
structure Used (w : World κ ε ρ) (m : Nat) (ls : List (Listener κ ε ρ)) (t : Traffic κ ε ρ)
    (f : List (Nat × κ)) (w' : World κ ε ρ) : Prop where
  world : ∃ c, w.pointer m = some c ∧ w' = (w.joined m ls).behind m c t f
  steps : Reaches (quiet (w.cacheOf m) (w.listenersOf m)) t
  resting : t.Resting
  listeners : t.listeners = w.listenersOf m ++ ls.map (·.number)
  pending : f = [] → t.pending = []
  numbered : ls.map (·.number) = List.range' w.numbers.length ls.length

namespace World.Fit

variable {w w' : World κ ε ρ} {m : Nat} {map : Memoised κ ε ρ}

theorem nodup_listenersOf (h : w.Fit) (m : Nat) : (w.listenersOf m).Nodup := by
  have hall : w.numbers.Nodup := h.numbered.nodup_iff.2 List.nodup_range
  unfold listenersOf
  cases hm : w.maps[m]? with
  | none => exact .nil
  | some map => exact (List.nodup_flatMap.1 hall).1 map (List.mem_of_getElem? hm)

/-- No two maps have a listener in common. -/
theorem listenersOf_apart (h : w.Fit) {n x y : Nat} (hx : n ∈ w.listenersOf x)
    (hy : n ∈ w.listenersOf y) : x = y := by
  have hall : w.numbers.Nodup := h.numbered.nodup_iff.2 List.nodup_range
  have hpairs := List.pairwise_iff_getElem.1 (List.nodup_flatMap.1 hall).2
  have hin {z : Nat} (hz : n ∈ w.listenersOf z) :
      ∃ hlt : z < w.maps.length, n ∈ w.maps[z].listeners.map (·.number) := by
    unfold listenersOf at hz
    cases hm : w.maps[z]? with
    | none => simp [hm] at hz
    | some map =>
      obtain ⟨hlt, rfl⟩ := List.getElem?_eq_some_iff.1 hm
      exact ⟨hlt, by simpa [hm] using hz⟩
  obtain ⟨hxlt, hx⟩ := hin hx
  obtain ⟨hylt, hy⟩ := hin hy
  rcases Nat.lt_trichotomy x y with hlt | heq | hlt
  · exact absurd hy (List.disjoint_left.1 (hpairs x y hxlt hylt hlt) hx)
  · exact heq
  · exact absurd hx (List.disjoint_left.1 (hpairs y x hylt hxlt hlt) hy)

theorem fresh (h : w.Fit) : w.numbers.length ∉ w.numbers := by
  simp [h.numbered.mem_iff]

/-- A number that no listener has was not told anything. -/
theorem untold (h : w.Fit) {n : Nat} (hn : n ∉ w.numbers) : w.told n = [] := by
  refine List.eq_nil_iff_forall_not_mem.2 fun p hp => hn ?_
  exact h.heard (n, p) (mem_noted.1 hp)

omit [BEq κ] [Ord κ] in
/-- A call or a subscription begins with the traffic that nobody has turned to. -/
theorem behind_quiet (hmap : w.maps[m]? = some map) (hcache : map.cache < w.caches.length) :
    w.behind m map.cache (quiet (w.cacheOf m) (w.listenersOf m)) [] = w := by
  simp [behind, quiet, cacheOf, hmap, hcache]

theorem call (h : w.Fit) {depth : Nat} {key : κ} {r : Except ε ρ}
    (hends : Ends (Run.demand depth m key) w r w') : ∃ t f, Used w m [] t f w' := by
  obtain ⟨map, hmap⟩ : ∃ map, w.maps[m]? = some map := by
    cases depth with
    | zero => exact absurd hends Ends.not_stuck
    | succ depth =>
      cases hm : w.maps[m]? with
      | some map => exact ⟨map, rfl⟩
      | none =>
        simp only [Run.demand, Ends.get_bind, hm] at hends
        exact absurd hends Ends.not_stuck
  have hcache := h.placed m _ (pointer_of_map hmap)
  rw [← behind_quiet hmap hcache] at hends
  obtain ⟨t, f, hleft⟩ := demand_follows hmap hcache depth key _ [] [] r w' (listenersOf_of_map hmap)
    (.refl _) hends
  refine ⟨t, f, ⟨map.cache, pointer_of_map hmap, ?_⟩, hleft.leads.steps, hleft.resting rfl, ?_,
    hleft.delivered, rfl⟩
  · simpa using hleft.world
  · simpa [quiet] using hleft.leads.listeners

theorem subscribe (h : w.Fit) {depth : Nat} {l : Listener κ ε ρ} {r : Except ε Unit}
    (hm : m < w.maps.length) (hl : l.number = w.numbers.length)
    (hends : Ends (Run.subscribe depth m l) w r w') : ∃ t f, Used w m [l] t f w' := by
  have hmap : w.maps[m]? = some w.maps[m] := List.getElem?_eq_getElem hm
  have hcache := h.placed m _ (pointer_of_map hmap)
  have hfresh : l.number ∉ w.listenersOf m := fun hn => h.fresh (hl ▸ mem_numbers hn)
  rw [← behind_quiet hmap hcache] at hends
  obtain ⟨t, f, hleft⟩ := subscribe_follows hmap hcache depth (listenersOf_of_map hmap) (.refl _) hends
  refine ⟨t, f, ⟨_, pointer_of_map hmap, hleft.world⟩, .head (.subscribe _ hfresh) hleft.leads.steps,
    hleft.resting rfl, ?_, hleft.delivered, by simp [hl]⟩
  simpa [quiet, Traffic.joined] using hleft.leads.listeners

end World.Fit

namespace Used

open World

variable {w w' : World κ ε ρ} {m x y : Nat} {ls : List (Listener κ ε ρ)} {t : Traffic κ ε ρ}
  {f : List (Nat × κ)}

section

variable (h : Used w m ls t f w')

include h

theorem lt : m < w.maps.length := by
  obtain ⟨c, hc, -⟩ := h.world
  exact lt_of_pointer hc

theorem computed : w'.computed = w.computed ++ t.started.map (m, ·) := by
  obtain ⟨c, -, rfl⟩ := h.world
  rfl

theorem recorded : w'.recorded = w.recorded ++ t.recorded.map (m, ·) := by
  obtain ⟨c, -, rfl⟩ := h.world
  rfl

theorem notified : w'.notified = w.notified ++ t.received := by
  obtain ⟨c, -, rfl⟩ := h.world
  rfl

theorem failed : w'.failed = w.failed ++ f := by
  obtain ⟨c, -, rfl⟩ := h.world
  rfl

theorem pointer : w'.pointer x = w.pointer x := by
  obtain ⟨c, -, rfl⟩ := h.world
  exact pointer_joined

theorem share : w'.Share x y ↔ w.Share x y := by
  simp only [Share, h.pointer]

theorem numbers : w'.numbers.Perm (w.numbers ++ ls.map (·.number)) := by
  obtain ⟨c, -, rfl⟩ := h.world
  exact numbers_joined (List.getElem?_eq_getElem h.lt)

theorem listenersOf : w'.listenersOf x = if x = m then t.listeners else w.listenersOf x := by
  have hl := h.listeners
  have hlt := h.lt
  obtain ⟨c, -, rfl⟩ := h.world
  rw [hl]
  exact listenersOf_joined hlt

variable (hfit : w.Fit)

include hfit

/-- Listeners that arrive have new numbers. -/
theorem arrived {n : Nat} (hn : n ∈ ls.map (·.number)) : n ∉ w.numbers := by
  rw [h.numbered, List.mem_range'_1] at hn
  rw [hfit.numbered.mem_iff, List.mem_range]
  omega

theorem cacheOf_of_share (hx : w.Share m x) : w'.cacheOf x = t.cache := by
  obtain ⟨c, hm, hc⟩ := hx
  have hlt := hfit.placed m c hm
  have hpointer : w'.pointer x = some c := h.pointer.trans hc
  obtain ⟨d, hd, rfl⟩ := h.world
  obtain rfl : c = d := Option.some.inj (hm.symm.trans hd)
  rw [cacheOf_of_pointer hpointer]
  simp [behind, World.joined, hlt]

theorem cacheOf_self : w'.cacheOf m = t.cache := h.cacheOf_of_share hfit (share_self h.lt)

omit hfit in
theorem cacheOf_of_apart (hx : ¬ w.Share m x) : w'.cacheOf x = w.cacheOf x := by
  have hpointer : w'.pointer x = w.pointer x := h.pointer
  obtain ⟨c, hm, rfl⟩ := h.world
  exact cacheOf_set rfl hpointer fun hc => hx ⟨c, hm, hc⟩

end

variable [LawfulBEq κ] [Std.LawfulEqOrd κ] [Std.TransOrd κ]

theorem sound (h : Used w m ls t f w') (hfit : w.Fit) :
    Sound (w.cacheOf m) (w.listenersOf m) t :=
  h.steps.sound (hfit.orderly m) (hfit.nodup_listenersOf m)

theorem fit (h : Used w m ls t f w') (hfit : w.Fit) : w'.Fit where
  placed x c hx := by
    rw [h.pointer] at hx
    have hlt := hfit.placed x c hx
    obtain ⟨d, -, rfl⟩ := h.world
    simpa [behind, World.joined] using hlt
  orderly x := by
    by_cases hx : w.Share m x
    · rw [h.cacheOf_of_share hfit hx]
      exact (h.sound hfit).orderly
    · rw [h.cacheOf_of_apart hx]
      exact hfit.orderly x
  settled x key := by
    by_cases hx : w.Share m x
    · rw [h.cacheOf_of_share hfit hx]
      rcases (h.sound hfit).at_rest h.resting key with ⟨-, -, hentry⟩ | ⟨outcome, -, -, -, hentry⟩
      · rw [hentry]
        exact hfit.settled m key
      · simp [hentry]
    · rw [h.cacheOf_of_apart hx]
      exact hfit.settled x key
  numbered := by
    have hlength : w'.numbers.length = w.numbers.length + ls.length := by
      simp [h.numbers.length_eq]
    have hrange : List.range w.numbers.length ++ List.range' w.numbers.length ls.length =
        List.range w'.numbers.length := by
      rw [hlength, List.range_eq_range', List.range_eq_range', ← List.range'_append_1, Nat.zero_add]
    have hperm := h.numbers.trans (hfit.numbered.append_right _)
    rwa [h.numbered, hrange] at hperm
  heard note hnote := by
    rw [h.notified, List.mem_append] at hnote
    rw [h.numbers.mem_iff, List.mem_append]
    rcases hnote with hnote | hnote
    · exact .inl (hfit.heard note hnote)
    · -- who is no listener is owed nothing
      have hl : note.1 ∈ t.listeners := by
        by_contra hn
        have hmem : note.2 ∈ noted note.1 t.received := mem_noted.2 hnote
        rw [(h.sound hfit).untold hn] at hmem
        cases hmem
      rw [h.listeners, List.mem_append] at hl
      exact hl.imp_left World.mem_numbers

end Used

namespace World

variable {w : World κ ε ρ} {a b x y : Nat}

section Histories

@[simp] theorem computed_merge : (w.merge a b).computed = w.computed := by
  unfold merge
  split <;> (try split) <;> rfl

@[simp] theorem recorded_merge : (w.merge a b).recorded = w.recorded := by
  unfold merge
  split <;> (try split) <;> rfl

@[simp] theorem notified_merge : (w.merge a b).notified = w.notified := by
  unfold merge
  split <;> (try split) <;> rfl

@[simp] theorem failed_merge : (w.merge a b).failed = w.failed := by
  unfold merge
  split <;> (try split) <;> rfl

end Histories

/-- A merge of maps that share a cache already changes nothing. -/
theorem merge_of_share (h : w.Share a b) : w.merge a b = w := by
  obtain ⟨c, ha, hb⟩ := h
  simp only [pointer, Option.map_eq_some_iff] at ha hb
  obtain ⟨mine, hmine, rfl⟩ := ha
  obtain ⟨theirs, htheirs, heq⟩ := hb
  simp [merge, hmine, htheirs, heq]

/-- Otherwise, the first map gets to know what the second one knows, and this one turns to its cache. -/
theorem merge_of_apart {mine theirs : Memoised κ ε ρ} (hmine : w.maps[a]? = some mine)
    (htheirs : w.maps[b]? = some theirs) (h : ¬ w.Share a b) :
    w.merge a b = { w with
      maps := w.maps.set b { theirs with cache := mine.cache }
      caches := w.caches.set mine.cache ((w.cacheOf a).absorb (w.cacheOf b)) } := by
  have hne : mine.cache ≠ theirs.cache := fun he =>
    h ⟨mine.cache, by simp [pointer, hmine], by simp [pointer, htheirs, he]⟩
  have hab : a ≠ b := by
    rintro rfl
    exact hne (by rw [Option.some.inj (hmine.symm.trans htheirs)])
  simp [merge, hmine, htheirs, hne, hab]

theorem pointer_merge (ha : a < w.maps.length) (hb : b < w.maps.length) :
    (w.merge a b).pointer x = if x = b then w.pointer a else w.pointer x := by
  have hmine := List.getElem?_eq_getElem ha
  have htheirs := List.getElem?_eq_getElem hb
  by_cases h : w.Share a b
  · obtain ⟨c, hca, hcb⟩ := h
    rw [merge_of_share ⟨c, hca, hcb⟩]
    by_cases hx : x = b
    · subst hx
      simp [hca, hcb]
    · simp [hx]
  · rw [merge_of_apart hmine htheirs h]
    by_cases hx : b = x
    · subst hx
      simp [pointer, hb, hmine]
    · simp [pointer, hx, Ne.symm hx]

/-- A merge leaves every map its listeners. -/
theorem listeners_merge : (w.merge a b).maps.map (·.listeners) = w.maps.map (·.listeners) := by
  by_cases h : w.Share a b
  · rw [merge_of_share h]
  · cases hmine : w.maps[a]? with
    | none => simp [merge, hmine]
    | some mine =>
      cases htheirs : w.maps[b]? with
      | none => simp [merge, hmine, htheirs]
      | some theirs =>
        rw [merge_of_apart hmine htheirs h, List.map_set]
        obtain ⟨hb, rfl⟩ := List.getElem?_eq_some_iff.1 htheirs
        have hb' : b < (w.maps.map (·.listeners)).length := by simpa using hb
        have hself := List.set_getElem_self hb'
        rwa [List.getElem_map] at hself

theorem listenersOf_merge : (w.merge a b).listenersOf x = w.listenersOf x := by
  have hx := congrArg (·[x]?) (listeners_merge (w := w) (a := a) (b := b))
  simp only [List.getElem?_map] at hx
  simp only [listenersOf]
  cases hw : w.maps[x]? <;> cases hw' : (w.merge a b).maps[x]? <;> simp_all

theorem numbers_merge : (w.merge a b).numbers = w.numbers := by
  have hflat (v : World κ ε ρ) :
      v.numbers = (v.maps.map (·.listeners)).flatMap fun ls => ls.map (·.number) := by
    simp [numbers, List.flatMap_map]
  rw [hflat, hflat, listeners_merge]

theorem cacheOf_merge (hfit : w.Fit) (ha : a < w.maps.length) (hb : b < w.maps.length)
    (h : ¬ w.Share a b) (hx : x = b ∨ w.Share a x) :
    (w.merge a b).cacheOf x = (w.cacheOf a).absorb (w.cacheOf b) := by
  have hmine := List.getElem?_eq_getElem ha
  have hpa := pointer_of_map hmine
  have hpointer : (w.merge a b).pointer x = some w.maps[a].cache := by
    rw [pointer_merge ha hb, ← hpa]
    rcases hx with rfl | ⟨c, hca, hcx⟩
    · simp
    · simp [hca, hcx]
  rw [cacheOf_of_pointer hpointer, merge_of_apart hmine (List.getElem?_eq_getElem hb) h]
  simp [hfit.placed a _ hpa]

theorem cacheOf_merge_of_apart (ha : a < w.maps.length) (hb : b < w.maps.length)
    (hx : ¬ (x = b ∨ w.Share a x)) : (w.merge a b).cacheOf x = w.cacheOf x := by
  obtain ⟨hxb, hx⟩ := not_or.1 hx
  by_cases h : w.Share a b
  · rw [merge_of_share h]
  · have hmine := List.getElem?_eq_getElem ha
    have hmerge := merge_of_apart hmine (List.getElem?_eq_getElem hb) h
    have hpointer : (w.merge a b).pointer x = w.pointer x := by simp [pointer_merge ha hb, hxb]
    refine cacheOf_set (congrArg World.caches hmerge) hpointer fun hc => hx ?_
    exact ⟨_, pointer_of_map hmine, hc⟩

variable [LawfulBEq κ]

/-- What the second map knows of a key wins. -/
theorem find?_merge (hfit : w.Fit) (ha : a < w.maps.length) (hb : b < w.maps.length)
    (hx : x = b ∨ w.Share a x) {key : κ} :
    ((w.merge a b).cacheOf x).find? key =
      ((w.cacheOf b).find? key).or ((w.cacheOf a).find? key) := by
  by_cases h : w.Share a b
  · have hxb : w.cacheOf x = w.cacheOf b := by
      rcases hx with rfl | hx
      · rfl
      · exact (hx.symm.trans h).cacheOf_eq
    rw [merge_of_share h, hxb, h.cacheOf_eq, Option.or_self]
  · rw [cacheOf_merge hfit ha hb h hx, Cache.find?_absorb (hfit.orderly b)]

variable [Std.LawfulEqOrd κ] [Std.TransOrd κ]

omit [LawfulBEq κ] in
/-- The results of the second map win. -/
theorem mem_results_merge (hfit : w.Fit) (ha : a < w.maps.length) (hb : b < w.maps.length)
    (hx : x = b ∨ w.Share a x) {p : κ × ρ} :
    p ∈ ((w.merge a b).cacheOf x).results ↔ p ∈ (w.cacheOf b).results ∨
      (p ∈ (w.cacheOf a).results ∧ p.1 ∉ (w.cacheOf b).results.map Prod.fst) := by
  by_cases h : w.Share a b
  · have hxb : w.cacheOf x = w.cacheOf b := by
      rcases hx with rfl | hx
      · rfl
      · exact (hx.symm.trans h).cacheOf_eq
    rw [merge_of_share h, hxb, h.cacheOf_eq, or_iff_left_of_imp And.left]
  · rw [cacheOf_merge hfit ha hb h hx]
    exact Cache.mem_results_absorb (hfit.orderly a) (hfit.orderly b)

omit [LawfulBEq κ] in
theorem mem_keys_merge (hfit : w.Fit) (ha : a < w.maps.length) (hb : b < w.maps.length)
    (hx : x = b ∨ w.Share a x) {key : κ} :
    key ∈ ((w.merge a b).cacheOf x).results.map Prod.fst ↔
      key ∈ (w.cacheOf b).results.map Prod.fst ∨ key ∈ (w.cacheOf a).results.map Prod.fst := by
  simp only [List.mem_map, mem_results_merge hfit ha hb hx]
  constructor
  · rintro ⟨p, hp | ⟨hp, -⟩, rfl⟩
    · exact .inl ⟨p, hp, rfl⟩
    · exact .inr ⟨p, hp, rfl⟩
  · rintro (⟨p, hp, rfl⟩ | ⟨p, hp, rfl⟩)
    · exact ⟨p, .inl hp, rfl⟩
    · -- a key of both maps has its result from the second one
      by_cases hkey : ∃ q ∈ (w.cacheOf b).results, q.1 = p.1
      · obtain ⟨q, hq, heq⟩ := hkey
        exact ⟨q, .inl hq, heq⟩
      · exact ⟨p, .inr ⟨hp, hkey⟩, rfl⟩

theorem Fit.merge (h : w.Fit) (ha : a < w.maps.length) (hb : b < w.maps.length) :
    (w.merge a b).Fit where
  placed x c hx := by
    have hlength : (w.merge a b).caches.length = w.caches.length := by
      by_cases hs : w.Share a b
      · rw [merge_of_share hs]
      · rw [merge_of_apart (List.getElem?_eq_getElem ha) (List.getElem?_eq_getElem hb) hs]
        exact List.length_set
    rw [hlength]
    rw [pointer_merge ha hb] at hx
    split at hx
    · exact h.placed a c hx
    · exact h.placed x c hx
  orderly x := by
    by_cases hs : w.Share a b
    · rw [merge_of_share hs]
      exact h.orderly x
    · by_cases hx : x = b ∨ w.Share a x
      · rw [cacheOf_merge h ha hb hs hx]
        exact (h.orderly a).absorb (h.orderly b)
      · rw [cacheOf_merge_of_apart ha hb hx]
        exact h.orderly x
  settled x key := by
    by_cases hx : x = b ∨ w.Share a x
    · rw [find?_merge h ha hb hx]
      cases hb' : (w.cacheOf b).find? key with
      | none => exact h.settled a key
      | some known =>
        rw [Option.some_or, ← hb']
        exact h.settled b key
    · rw [cacheOf_merge_of_apart ha hb hx]
      exact h.settled x key
  numbered := by
    rw [numbers_merge]
    exact h.numbered
  heard note hnote := by
    rw [numbers_merge]
    exact h.heard note (by simpa using hnote)

section Beginning

variable {rules : List (κ → Plan κ ε ρ ρ)}

omit [BEq κ] [Ord κ] in
/-- In the beginning, each map points to a cache of its own. -/
theorem pointer_ofRules {m c : Nat} :
    (ofRules rules).pointer m = some c ↔ m < rules.length ∧ m = c := by
  by_cases hm : m < rules.length <;> simp [pointer, ofRules, hm]

omit [BEq κ] [Ord κ] in
@[simp] theorem cacheOf_ofRules {m : Nat} : (ofRules rules).cacheOf m = .empty := by
  by_cases hm : m < rules.length <;> simp [cacheOf, ofRules, hm]

omit [BEq κ] [Ord κ] in
@[simp] theorem numbers_ofRules : (ofRules rules).numbers = [] := by
  refine List.flatMap_eq_nil_iff.2 fun map hmap => ?_
  obtain ⟨i, hi, rfl⟩ := List.mem_mapIdx.1 hmap
  rfl

omit [BEq κ] [Ord κ] in
@[simp] theorem listenersOf_ofRules {m : Nat} : (ofRules rules).listenersOf m = [] := by
  by_cases hm : m < rules.length <;> simp [listenersOf, ofRules, hm]

end Beginning

omit [LawfulBEq κ] [Std.LawfulEqOrd κ] [Std.TransOrd κ] in
theorem Fit.ofRules (rules : List (κ → Plan κ ε ρ ρ)) : (World.ofRules rules).Fit where
  placed m c hc := by
    obtain ⟨hm, rfl⟩ := pointer_ofRules.1 hc
    simpa [World.ofRules] using hm
  orderly m := by
    rw [cacheOf_ofRules]
    exact .empty
  settled m key := by simp
  numbered := by simp
  heard note hnote := by cases hnote

end World

end Hoist.Memo
