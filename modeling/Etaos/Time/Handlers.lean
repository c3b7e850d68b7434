import Etaos.Time.Order

/-!
# Handlers that stop timers

The walk of `timer_process` when the handler of a timer stops other timers of the list.  The
walk has read the entry behind the timer before the handler is called, and goes on with it
afterwards; when that entry was the one of a timer that the handler stopped, its memory has
been released.
-/

namespace Etaos.Time

open Lib Crt

namespace Clocksource

/-! ### The walk -/

/-- The function `raw_timer_stop`. -/
def rawTimerStop (cs : Clocksource) (timer : ℕ) : Option Clocksource := do
  let lists ← cs.lists.listDel (.entry timer)
  some ({ cs with lists }.kfree timer)

/-- The handler of `timer` stops other timers, those of a list that are live. -/
def stopAll (cs : Clocksource) (timer : ℕ) : List ℕ → Option Clocksource
  | [] => some cs
  | u :: us =>
      if u ∈ cs.live ∧ u ≠ timer then do
        let cs ← cs.rawTimerStop u
        stopAll cs timer us
      else
        stopAll cs timer us

/-- The timers that the handler of a timer stops.  A timer without a handler stops none. -/
def stopsOf (cs : Clocksource) (stops : ℕ → List ℕ) (timer : ℕ) : List ℕ :=
  if (cs.timer timer).handle.isSome then stops timer else []

/-- The memory of an entry is allocated. -/
def holds (cs : Clocksource) : Entry → Bool
  | .timers => true
  | .entry timer => timer ∈ cs.live

/-- The walk of `timer_process` with the timers that it processes, whose handlers stop other
timers.  It is `none` when it follows the entry of a timer that was released. -/
def stoppingLoop (stops : ℕ → List ℕ) (cs : Clocksource) : ℕ → Entry → Entry →
    Option (Clocksource × List ℕ)
  | _, .timers, _ => some (cs, [])
  | 0, .entry _, _ => none
  | n + 1, .entry timer, x =>
      if cs.timerIsExpired timer then do
        let lists ← cs.lists.listDel (.entry timer)
        let cs ← { cs with lists }.stopAll timer (cs.stopsOf stops timer)
        let cs ← cs.rearm timer
        guard (cs.holds x)
        let next ← cs.lists.next x
        let (cs, timers) ← stoppingLoop stops cs n x next
        some (cs, timer :: timers)
      else
        some (cs, [])

/-- The function `timer_process`, with the timers that it processes. -/
def timerProcessStopping (stops : ℕ → List ℕ) (cs : Clocksource) :
    Option (Clocksource × List ℕ) := do
  let cs := cs.clocksourceUpdate
  let carriage ← cs.lists.next .timers
  let x ← cs.lists.next carriage
  cs.stoppingLoop stops (cs.live.length + 1) carriage x

end Clocksource

/-! ### The walk over a list of timers -/

/-- What a walk over the timers of a list depends on, but for the times they expire at. -/
structure Handling where
  now : ℤ
  interval : ℕ → ℕ
  stops : ℕ → List ℕ

namespace Handling

variable {w : Handling} {key key' : ℕ → ℤ} {l l' rest c : List ℕ} {t x : ℕ}

/-- The times that the timers expire at after a timer was processed. -/
def rearmed (w : Handling) (key : ℕ → ℤ) (t : ℕ) : ℕ → ℤ :=
  if w.interval t = 0 then key else Function.update key t (w.now + w.interval t)

/-- The list after its first timer `t` was processed, with the timers `rest` behind it. -/
def afterCall (w : Handling) (key : ℕ → ℤ) (t : ℕ) (rest : List ℕ) : List ℕ :=
  let left := rest.filter fun x => x ∉ w.stops t
  if w.interval t = 0 then left else insertTimer (w.rearmed key t) t left

/-- A walk over the list `l` processes the timers `c`, and leaves the list `l'`.  No handler
stops the timer behind its own. -/
inductive Walk (w : Handling) : (ℕ → ℤ) → List ℕ → List ℕ → (ℕ → ℤ) → List ℕ → Prop
  | stop {key : ℕ → ℤ} {l : List ℕ} : (∀ x ∈ l.head?, w.now < key x) → Walk w key l [] key l
  | call {key key' : ℕ → ℤ} {t : ℕ} {rest c l' : List ℕ} : key t ≤ w.now →
      (∀ x ∈ rest.head?, x ∉ w.stops t) →
      Walk w (w.rearmed key t) (w.afterCall key t rest) c key' l' →
      Walk w key (t :: rest) (t :: c) key' l'

/-- No handler that is called stops the timer behind its own, and the walk stops when no timer
of the list has expired. -/
inductive Spares (w : Handling) : (ℕ → ℤ) → List ℕ → Prop
  | stop {key : ℕ → ℤ} {l : List ℕ} : (∀ x ∈ l, w.now < key x) → Spares w key l
  | call {key : ℕ → ℤ} {t : ℕ} {rest : List ℕ} : key t ≤ w.now →
      (∀ x ∈ rest.head?, x ∉ w.stops t) →
      Spares w (w.rearmed key t) (w.afterCall key t rest) → Spares w key (t :: rest)

/-- What is due of the timers `c` that are processed of a list: each of them has expired and
was not stopped before its turn, and an expired timer that is not processed was stopped. -/
structure Due (w : Handling) (key : ℕ → ℤ) (l c : List ℕ) : Prop where
  expired : ∀ t ∈ c, t ∈ l ∧ key t ≤ w.now
  once : c.Nodup
  notStopped : c.Pairwise fun u t => t ∉ w.stops u
  complete : ∀ t ∈ l, key t ≤ w.now → t ∈ c ∨ ∃ u ∈ c, t ∈ w.stops u

theorem mem_afterCall :
  x ∈ w.afterCall key t rest ↔ (x = t ∧ w.interval t ≠ 0) ∨ (x ∈ rest ∧ x ∉ w.stops t)
  := by
  rw [afterCall]
  split
  · simp [*]
  · rw [(perm_insertTimer _).mem_iff, List.mem_cons, List.mem_filter, decide_eq_true_eq]
    simp [*]

theorem rearmed_of_ne (hne : x ≠ t) : w.rearmed key t x = key x := by
  rw [rearmed]
  split
  · rfl
  · rw [Function.update_of_ne hne]

theorem rearmed_self (hinterval : w.interval t ≠ 0) :
  w.rearmed key t t = w.now + w.interval t
  := by
  rw [rearmed, if_neg hinterval, Function.update_self]

/-- A timer that was processed has not expired again. -/
theorem lt_rearmed (w : Handling) (key : ℕ → ℤ) (hinterval : w.interval t ≠ 0) :
  w.now < w.rearmed key t t
  := by
  rw [rearmed_self hinterval]
  omega

theorem nodup_afterCall (h : (t :: rest).Nodup) : (w.afterCall key t rest).Nodup := by
  rw [List.nodup_cons] at h
  have hleft : (rest.filter fun x => x ∉ w.stops t).Nodup := h.2.filter _
  rw [afterCall]
  split
  · apply hleft
  · rw [(perm_insertTimer _).nodup_iff, List.nodup_cons]
    refine ⟨?_, hleft⟩
    intro hmem
    apply h.1 (List.mem_of_mem_filter hmem)

/-- An expired timer behind a timer that was processed was behind it before. -/
theorem mem_of_expired (h : (t :: rest).Nodup) (hx : x ∈ w.afterCall key t rest)
    (hkey : w.rearmed key t x ≤ w.now) :
  x ≠ t ∧ x ∈ rest ∧ x ∉ w.stops t ∧ key x ≤ w.now
  := by
  rcases mem_afterCall.mp hx with ⟨rfl, hinterval⟩ | ⟨hrest, hstop⟩
  · have := lt_rearmed w key hinterval
    omega
  · have hne : x ≠ t := by
      rintro rfl
      exact (List.nodup_cons.mp h).1 hrest
    rw [rearmed_of_ne hne] at hkey
    exact ⟨hne, hrest, hstop, hkey⟩

/-- When no handler stops the timer behind its own, there is a walk, and it processes what is
due. -/
theorem Spares.walk (h : w.Spares key l) :
    l.Nodup → ∃ c key' l', w.Walk key l c key' l' ∧ w.Due key l c := by
  induction h with
  | @stop key l hlate =>
      intro _
      refine ⟨[], key, l, Walk.stop ?_, ?_⟩
      · intro x hx
        apply hlate x (List.mem_of_mem_head? hx)
      · constructor
        · simp
        · apply List.nodup_nil
        · apply List.Pairwise.nil
        · intro t ht hkey
          have := hlate t ht
          omega
  | @call key t rest hkey hnext _ ih =>
      intro hnodup
      obtain ⟨c, key', l', hwalk, hdue⟩ := ih (nodup_afterCall hnodup)
      refine ⟨t :: c, key', l', Walk.call hkey hnext hwalk, ?_⟩
      have hc (x : ℕ) (hx : x ∈ c) : x ≠ t ∧ x ∈ rest ∧ x ∉ w.stops t ∧ key x ≤ w.now := by
        obtain ⟨hmem, hexpired⟩ := hdue.expired x hx
        apply mem_of_expired hnodup hmem hexpired
      constructor
      · rw [List.forall_mem_cons]
        refine ⟨⟨List.mem_cons_self, hkey⟩, ?_⟩
        intro x hx
        obtain ⟨-, hrest, -, hexpired⟩ := hc x hx
        exact ⟨List.mem_cons_of_mem t hrest, hexpired⟩
      · rw [List.nodup_cons]
        exact ⟨fun ht => (hc t ht).1 rfl, hdue.once⟩
      · rw [List.pairwise_cons]
        exact ⟨fun x hx => (hc x hx).2.2.1, hdue.notStopped⟩
      · rw [List.forall_mem_cons]
        refine ⟨fun _ => .inl List.mem_cons_self, ?_⟩
        intro x hx hexpired
        by_cases hstop : x ∈ w.stops t
        · exact .inr ⟨t, List.mem_cons_self, hstop⟩
        · have hne : x ≠ t := by
            rintro rfl
            exact (List.nodup_cons.mp hnodup).1 hx
          have hcomplete := hdue.complete x (mem_afterCall.mpr (.inr ⟨hx, hstop⟩))
            (by rwa [rearmed_of_ne hne])
          rcases hcomplete with hmem | ⟨u, hu, hstop⟩
          · exact .inl (List.mem_cons_of_mem t hmem)
          · exact .inr ⟨u, List.mem_cons_of_mem t hu, hstop⟩

/-- A walk that processes what is due meets no handler that stops the timer behind its own. -/
theorem Walk.spares (h : w.Walk key l c key' l') :
    l.Nodup → (∀ t ∈ l, key t ≤ w.now → t ∈ c ∨ ∃ u ∈ c, t ∈ w.stops u) → w.Spares key l := by
  induction h with
  | stop _ =>
      intro _ hcomplete
      apply Spares.stop
      intro x hx
      by_contra hlate
      simpa using hcomplete x hx (by omega)
  | @call key _ t rest c _ hkey hnext _ ih =>
      intro hnodup hcomplete
      apply Spares.call hkey hnext
      apply ih (nodup_afterCall hnodup)
      intro x hx hexpired
      obtain ⟨hne, hrest, hstop, hexpired⟩ := mem_of_expired hnodup hx hexpired
      rcases hcomplete x (List.mem_cons_of_mem t hrest) hexpired with hmem | ⟨u, hu, hxu⟩
      · rcases List.mem_cons.mp hmem with heq | hmem
        · exact absurd heq hne
        · exact .inl hmem
      · rcases List.mem_cons.mp hu with rfl | hu
        · exact absurd hxu hstop
        · exact .inr ⟨u, hu, hxu⟩

/-- There is one walk only. -/
theorem Walk.unique {c' l'' : List ℕ} {key'' : ℕ → ℤ} (h : w.Walk key l c key' l') :
    w.Walk key l c' key'' l'' → c = c' ∧ key' = key'' ∧ l' = l'' := by
  induction h generalizing c' with
  | stop hlate =>
      rintro (⟨-⟩ | ⟨hkey, -, -⟩)
      · exact ⟨rfl, rfl, rfl⟩
      · have := hlate _ rfl
        omega
  | call hkey _ _ ih =>
      rintro (⟨hlate⟩ | ⟨-, -, hwalk⟩)
      · have := hlate _ rfl
        omega
      · obtain ⟨rfl, rfl, rfl⟩ := ih hwalk
        exact ⟨rfl, rfl, rfl⟩

/-- The timer behind the one that was processed is the first one of the list afterwards, unless
the one that was processed is inserted before it. -/
theorem afterCall_cons (key : ℕ → ℤ) {r : List ℕ} (hstop : x ∉ w.stops t) :
  (∃ m, w.afterCall key t (x :: r) = x :: m) ∨
    ∃ m, w.interval t ≠ 0 ∧ w.afterCall key t (x :: r) = t :: x :: m ∧
      w.rearmed key t t ≤ w.rearmed key t x
  := by
  rw [afterCall, List.filter_cons_of_pos (by simpa using hstop)]
  split
  · exact .inl ⟨_, rfl⟩
  · rename_i hinterval
    cases (r.filter fun x => x ∉ w.stops t) with
    | nil => exact .inl ⟨_, rfl⟩
    | cons y m =>
        rw [insertTimer]
        split
        · rename_i hle
          exact .inr ⟨_, hinterval, rfl, hle⟩
        · exact .inl ⟨_, rfl⟩

/-- Fewer timers of the list have expired after one of them was processed. -/
theorem countP_afterCall (w : Handling) (key : ℕ → ℤ) (hnodup : (t :: rest).Nodup) :
  (w.afterCall key t rest).countP (fun x => w.rearmed key t x ≤ w.now)
    ≤ rest.countP fun x => key x ≤ w.now
  := by
  have hleft : (rest.filter fun x => x ∉ w.stops t).countP
      (fun x => w.rearmed key t x ≤ w.now) ≤ rest.countP fun x => key x ≤ w.now := by
    apply (List.filter_sublist.countP_le).trans
    apply le_of_eq
    apply List.countP_congr
    intro x hx
    have hne : x ≠ t := by
      rintro rfl
      exact (List.nodup_cons.mp hnodup).1 hx
    rw [rearmed_of_ne hne]
  rw [afterCall]
  split
  · apply hleft
  · rename_i hinterval
    rw [(perm_insertTimer _).countP_eq, List.countP_cons_of_neg]
    · apply hleft
    · have := lt_rearmed w key hinterval
      simpa using this

end Handling

/-! ### The walk over the list in memory -/

namespace Clocksource

variable {cs cs₁ : Clocksource} {stops : ℕ → List ℕ} {key : ℕ → ℤ} {a b l rest : List ℕ} {t : ℕ}

/-- What a walk over the timers of a clock source depends on. -/
def handling (cs : Clocksource) (stops : ℕ → List ℕ) : Handling where
  now := cs.count
  interval := fun t => (cs.timer t).interval
  stops := cs.stopsOf stops

/-- The clock source `cs'` is `cs` with the timers of the list `l` on it, that expire at the
times `key`. -/
structure Agrees (cs cs' : Clocksource) (key : ℕ → ℤ) (l : List ℕ) : Prop where
  timers : cs'.Timers l
  live : l.Perm cs'.live
  count : cs'.count = cs.count
  timer : ∀ x, cs'.timer x = { cs.timer x with expireAt := key x }

theorem Agrees.key_eq (h : Agrees cs cs₁ key l) : cs₁.expireAt = key := by
  funext x
  rw [expireAt, h.timer x]

theorem Agrees.handling_eq (h : Agrees cs cs₁ key l) (stops : ℕ → List ℕ) :
  cs₁.handling stops = cs.handling stops
  := by
  have hstops : cs₁.stopsOf stops = cs.stopsOf stops := by
    funext x
    rw [stopsOf, stopsOf, h.timer x]
  have hinterval : (fun t => (cs₁.timer t).interval) = fun t => (cs.timer t).interval := by
    funext x
    rw [h.timer x]
  rw [handling, handling, h.count, hstops, hinterval]

/-- The clock is not at the end of `time_t`, for the timers of the list. -/
def Room (cs : Clocksource) (l : List ℕ) : Prop :=
  ∀ t ∈ l, cs.count + (cs.timer t).interval < 2 ^ 63

theorem Room.expired_iff (h : cs.Room l) (ht : t ∈ l) :
  cs.timerIsExpired t ↔ cs.expireAt t ≤ cs.count
  := by
  have := h t ht
  rw [timerIsExpired, clocksourceGetTick, toInt64_eq (by omega) (by omega), decide_eq_true_eq]
  rfl

/-- A timer is deleted from the list. -/
theorem Timers.erase (hl : cs.Timers l) (ht : t ∈ l) :
  ∃ lists, cs.lists.listDel (.entry t) = some lists ∧
    lists.IsList .timers ((l.erase t).map .entry)
  := by
  obtain ⟨a, b, -, rfl, herase⟩ := List.exists_erase_eq ht
  rw [herase]
  apply hl.listDel

/-- The handler of a timer that is not on the list stops timers of the list. -/
theorem Timers.stopAll :
    ∀ (us : List ℕ) {l : List ℕ} {cs : Clocksource}, cs.Timers l → (t :: l).Perm cs.live → t ∉ l →
      ∃ lists live, cs.stopAll t us = some { cs with lists, live } ∧
        lists.IsList .timers ((l.filter fun x => x ∉ us).map .entry) ∧
        (t :: l.filter fun x => x ∉ us).Perm live
  | [], l, cs, hl, hlive, _ => by
      refine ⟨cs.lists, cs.live, rfl, ?_, ?_⟩
      · simpa [Timers] using hl
      · simpa using hlive
  | u :: us, l, cs, hl, hlive, ht => by
      have hfilter : (l.erase u).filter (fun x => x ∉ us) = l.filter fun x => x ∉ u :: us := by
        rw [hl.nodup.erase_eq_filter, List.filter_filter]
        apply List.filter_congr
        intro x _
        by_cases hx : x = u <;> simp [hx]
      have hmem : (u ∈ cs.live ∧ u ≠ t) ↔ u ∈ l := by
        rw [← hlive.mem_iff, List.mem_cons]
        constructor
        · rintro ⟨heq | hu, hne⟩
          · exact absurd heq hne
          · exact hu
        · intro hu
          refine ⟨.inr hu, ?_⟩
          rintro rfl
          exact ht hu
      rw [Clocksource.stopAll]
      by_cases hu : u ∈ l
      · have hne : u ≠ t := (hmem.mpr hu).2
        obtain ⟨lists, hdel, hlist⟩ := hl.erase hu
        have hlive' : (t :: l.erase u).Perm (cs.live.erase u) := by
          have herase := hlive.erase u
          rwa [List.erase_cons_tail (by simpa using hne.symm)] at herase
        let cs' : Clocksource := { cs with lists, live := cs.live.erase u }
        have hlist' : cs'.Timers (l.erase u) := hlist
        obtain ⟨lists', live', hstop, hlist', hperm⟩ := Timers.stopAll us hlist' hlive'
          (fun hin => ht (List.mem_of_mem_erase hin))
        rw [if_pos (hmem.mpr hu), rawTimerStop, hdel]
        rw [hfilter] at hlist' hperm
        exact ⟨lists', live', hstop, hlist', hperm⟩
      · obtain ⟨lists', live', hstop, hlist', hperm⟩ := Timers.stopAll us hl hlive ht
        rw [← hfilter, List.erase_of_not_mem hu, if_neg (fun h => hu (hmem.mp h))]
        exact ⟨lists', live', hstop, hlist', hperm⟩

/-- The timer that was processed is inserted into the list again, or released. -/
theorem Timers.rearm (hl : cs.Timers l) (hlive : (t :: l).Perm cs.live) (ht : t ∉ l)
    (hroom : cs.count + (cs.timer t).interval < 2 ^ 63) :
  ∃ cs', cs.rearm t = some cs' ∧
    Agrees cs cs' ((cs.handling stops).rearmed cs.expireAt t)
      (if (cs.handling stops).interval t = 0 then l
        else insertTimer ((cs.handling stops).rearmed cs.expireAt t) t l)
  := by
  have heq : (cs.handling stops).interval t = (cs.timer t).interval := rfl
  rw [Clocksource.rearm, Handling.rearmed, heq]
  by_cases hinterval : (cs.timer t).interval = 0
  · rw [if_neg (not_not.mpr hinterval), if_pos hinterval, if_pos hinterval]
    refine ⟨_, rfl, hl, ?_, rfl, fun x => rfl⟩
    exact (List.cons_perm_iff_perm_erase.mp hlive).2
  · let key := Function.update cs.expireAt t (cs.count + (cs.timer t).interval)
    let cs' : Clocksource := { cs with
      timer := Function.update cs.timer t
        { cs.timer t with expireAt := cs.count + (cs.timer t).interval } }
    have hkey : cs'.expireAt = key := by
      funext x
      by_cases hx : x = t <;> simp [cs', key, expireAt, hx]
    have hl' : cs'.Timers l := hl
    have hlength : l.length ≤ cs'.live.length := by
      have := hlive.length_eq
      rw [List.length_cons] at this
      simp only [cs']
      omega
    obtain ⟨lists, hinsert, hlist⟩ := hl'.insert ht hlength
    rw [hkey] at hlist
    rw [if_pos hinterval, if_neg hinterval, if_neg hinterval]
    refine ⟨{ cs' with lists }, ?_, hlist, (perm_insertTimer l).trans hlive, rfl, ?_⟩
    · have hnow : toInt64 (((cs.timer t).interval : ℤ) + (cs.clocksourceGetTick : ℤ))
          = cs.count + (cs.timer t).interval := by
        rw [clocksourceGetTick, toInt64_eq (by omega) (by omega)]
        omega
      simp only [hnow]
      exact hinsert
    · intro x
      by_cases hx : x = t
      · subst hx
        simp [cs', handling]
      · simp only [cs', Function.update_of_ne hx]
        rfl

/-- The entry behind the first timer of a list. -/
theorem Timers.next_first (hl : cs.Timers l) :
  cs.lists.next (Ring.first .timers (l.map .entry)) = some (Ring.first .timers (l.tail.map .entry))
  := by
  cases l with
  | nil => exact hl.next_head
  | cons x l => exact Timers.next (a := []) hl

/-- The first timer of the list is processed, and the walk goes on with the entry that was
behind it, unless that is the entry of a timer that was stopped. -/
theorem Timers.stoppingStep (hl : cs.Timers (t :: rest)) (hlive : (t :: rest).Perm cs.live)
    (hroom : cs.Room (t :: rest)) (hkey : cs.expireAt t ≤ cs.count) (stops : ℕ → List ℕ) (n : ℕ) :
  ((∃ x ∈ rest.head?, x ∈ cs.stopsOf stops t) →
      cs.stoppingLoop stops (n + 1) (.entry t) (Ring.first .timers (rest.map .entry)) = none) ∧
    ((∀ x ∈ rest.head?, x ∉ cs.stopsOf stops t) →
      ∃ cs₁ next, Agrees cs cs₁ ((cs.handling stops).rearmed cs.expireAt t)
          ((cs.handling stops).afterCall cs.expireAt t rest) ∧
        cs₁.lists.next (Ring.first .timers (rest.map .entry)) = some next ∧
        cs.stoppingLoop stops (n + 1) (.entry t) (Ring.first .timers (rest.map .entry))
          = (cs₁.stoppingLoop stops n (Ring.first .timers (rest.map .entry)) next).map
              fun (cs, timers) => (cs, t :: timers))
  := by
  have hnodup := hl.nodup
  rw [List.nodup_cons] at hnodup
  have hexpired : cs.timerIsExpired t :=
    (hroom.expired_iff List.mem_cons_self).mpr hkey
  obtain ⟨lists, hdel, hlist⟩ := Timers.listDel (a := []) hl
  let cs₁ : Clocksource := { cs with lists }
  have hlist₁ : cs₁.Timers rest := hlist
  obtain ⟨lists', live', hstop, hlist', hlive'⟩ :=
    hlist₁.stopAll (cs.stopsOf stops t) hlive hnodup.1
  let left := rest.filter fun x => x ∉ cs.stopsOf stops t
  let cs₂ : Clocksource := { cs₁ with lists := lists', live := live' }
  have hlist₂ : cs₂.Timers left := hlist'
  have hleft : t ∉ left := fun hin => hnodup.1 (List.mem_of_mem_filter hin)
  obtain ⟨cs₃, hrearm, hagrees⟩ := hlist₂.rearm hlive' hleft
    (hroom t List.mem_cons_self)
  have hloop : cs.stoppingLoop stops (n + 1) (.entry t) (Ring.first .timers (rest.map .entry))
      = (do
        guard (cs₃.holds (Ring.first .timers (rest.map .entry)))
        let next ← cs₃.lists.next (Ring.first .timers (rest.map .entry))
        let (cs, timers) ← cs₃.stoppingLoop stops n (Ring.first .timers (rest.map .entry)) next
        some (cs, t :: timers)) := by
    rw [stoppingLoop, if_pos hexpired, hdel]
    simp only [Option.bind_eq_bind, Option.bind_some]
    change (cs₁.stopAll t (cs.stopsOf stops t)).bind _ = _
    rw [hstop, Option.bind_some]
    change (cs₂.rearm t).bind _ = _
    rw [hrearm, Option.bind_some]
  have hcs₃ : Agrees cs cs₃ ((cs.handling stops).rearmed cs.expireAt t)
      ((cs.handling stops).afterCall cs.expireAt t rest) :=
    ⟨hagrees.timers, hagrees.live, hagrees.count, hagrees.timer⟩
  have hmem (x : ℕ) (hx : x ∈ rest) : x ∈ cs₃.live ↔ x ∉ cs.stopsOf stops t := by
    have hne : x ≠ t := by
      rintro rfl
      exact hnodup.1 hx
    rw [← hcs₃.live.mem_iff, Handling.mem_afterCall]
    constructor
    · rintro (⟨heq, -⟩ | ⟨-, hx⟩)
      · exact absurd heq hne
      · exact hx
    · intro hstop
      exact .inr ⟨hx, hstop⟩
  constructor
  · rintro ⟨x, hx, hstop⟩
    obtain ⟨r, rfl⟩ := List.head?_eq_some_iff.mp hx
    have hheld : x ∉ cs₃.live := by
      rw [hmem x List.mem_cons_self, not_not]
      exact hstop
    rw [hloop, List.map_cons, Ring.first_cons, holds, decide_eq_false hheld]
    rfl
  · intro hspared
    obtain ⟨hheld, next, hnext⟩ : cs₃.holds (Ring.first .timers (rest.map .entry)) ∧
        ∃ next, cs₃.lists.next (Ring.first .timers (rest.map .entry)) = some next := by
      cases rest with
      | nil => exact ⟨rfl, _, hcs₃.timers.next_head⟩
      | cons x r =>
          have hx : x ∈ cs₃.live := (hmem x List.mem_cons_self).mpr (hspared x rfl)
          obtain ⟨a, b, hab⟩ := List.append_of_mem (hcs₃.live.mem_iff.mpr hx)
          have htimers := hcs₃.timers
          rw [hab] at htimers
          exact ⟨decide_eq_true hx, _, htimers.next⟩
    refine ⟨cs₃, next, hcs₃, hnext, ?_⟩
    rw [hloop, hheld, hnext]
    simp only [guard, if_true, Option.pure_def, Option.bind_eq_bind, Option.bind_some]
    cases cs₃.stoppingLoop stops n (Ring.first .timers (rest.map .entry)) next with
    | none => rfl
    | some r => rfl

/-- The walk goes on from the first timer of the list: a timer that was inserted before it has
not expired, and neither has the timer it was inserted before. -/
theorem Timers.stoppingLoop_resume (stops : ℕ → List ℕ) {w : Handling} {m : ℕ}
    (hkey : cs₁.expireAt = w.rearmed key t)
    (hnodup : (t :: rest).Nodup) (hl : cs₁.Timers (w.afterCall key t rest))
    (hroom : cs₁.Room (w.afterCall key t rest)) (hnow : w.now = cs₁.count)
    (hspared : ∀ x ∈ rest.head?, x ∉ w.stops t) {next : Entry}
    (hnext : cs₁.lists.next (Ring.first .timers (rest.map .entry)) = some next) :
  cs₁.stoppingLoop stops (m + 1) (Ring.first .timers (rest.map .entry)) next
    = cs₁.stoppingLoop stops (m + 1)
        (Ring.first .timers ((w.afterCall key t rest).map .entry))
        (Ring.first .timers ((w.afterCall key t rest).tail.map .entry))
  := by
  -- a timer that has not expired ends the walk
  have hend {x : ℕ} (hx : x ∈ w.afterCall key t rest) (hlate : w.now < w.rearmed key t x)
      (y : Entry) : cs₁.stoppingLoop stops (m + 1) (.entry x) y = some (cs₁, []) := by
    have hunexpired : ¬ cs₁.timerIsExpired x := by
      rw [hroom.expired_iff hx, hkey]
      omega
    rw [stoppingLoop, if_neg hunexpired]
  cases rest with
  | nil =>
      by_cases hinterval : w.interval t = 0
      · rw [show w.afterCall key t [] = [] by simp [Handling.afterCall, hinterval]]
        rfl
      · have heq : w.afterCall key t [] = [t] := by
          simp [Handling.afterCall, hinterval, insertTimer]
        rw [heq, List.map_singleton, Ring.first_cons, hend (by simp [heq])
          (Handling.lt_rearmed w key hinterval)]
        rfl
  | cons x r =>
      rcases Handling.afterCall_cons (r := r) key (hspared x rfl) with
        ⟨m', heq⟩ | ⟨m', hinterval, heq, hle⟩
      · have htail := hl.next_first
        rw [heq] at htail ⊢
        obtain rfl := Option.some.inj (hnext.symm.trans htail)
        rfl
      · have hlate := Handling.lt_rearmed w key hinterval
        rw [heq, List.map_cons, Ring.first_cons, List.map_cons, Ring.first_cons,
          hend (by simp [heq]) hlate, hend (by simp [heq]) (by omega)]

/-- The walk of `timer_process` is the walk over the list of the timers, and follows the entry
of a timer that was released when there is none. -/
theorem Timers.stoppingLoop (stops : ℕ → List ℕ) :
    ∀ (n : ℕ) {l : List ℕ} {cs : Clocksource}, cs.Timers l → l.Perm cs.live → cs.Room l →
      l.countP (fun x => cs.expireAt x ≤ cs.count) < n →
      (∃ c key l' cs', (cs.handling stops).Walk cs.expireAt l c key l' ∧
          cs.stoppingLoop stops n (Ring.first .timers (l.map .entry))
            (Ring.first .timers (l.tail.map .entry)) = some (cs', c) ∧
          Agrees cs cs' key l') ∨
        cs.stoppingLoop stops n (Ring.first .timers (l.map .entry))
            (Ring.first .timers (l.tail.map .entry)) = none ∧
          ∀ c key l', ¬ (cs.handling stops).Walk cs.expireAt l c key l'
  | 0, _, _, _, _, _, hn => by omega
  | n + 1, [], cs, hl, hlive, _, _ => by
      left
      exact ⟨[], _, [], cs, Handling.Walk.stop (by simp), rfl, hl, hlive, rfl, fun x => rfl⟩
  | n + 1, t :: rest, cs, hl, hlive, hroom, hn => by
      by_cases hkey : cs.expireAt t ≤ cs.count
      · obtain ⟨hfreed, hspared⟩ := hl.stoppingStep hlive hroom hkey stops n
        by_cases hnext : ∃ x ∈ rest.head?, x ∈ cs.stopsOf stops t
        · right
          refine ⟨hfreed hnext, ?_⟩
          obtain ⟨x, hx, hstop⟩ := hnext
          rintro c key l' (⟨hlate⟩ | ⟨-, hspared, -⟩)
          · have hlt : (cs.count : ℤ) < cs.expireAt t := hlate t rfl
            omega
          · exact hspared x hx hstop
        · have hnext' (x : ℕ) (hx : x ∈ rest.head?) : x ∉ cs.stopsOf stops t :=
            fun hstop => hnext ⟨x, hx, hstop⟩
          obtain ⟨cs₁, next, hagrees, hread, hloop⟩ := hspared hnext'
          have hhandling := hagrees.handling_eq stops
          have hnodup := hl.nodup
          have hroom₁ : cs₁.Room ((cs.handling stops).afterCall cs.expireAt t rest) := by
            intro x hx
            rw [hagrees.count, hagrees.timer x]
            apply hroom
            rw [List.mem_cons]
            rcases Handling.mem_afterCall.mp hx with ⟨rfl, -⟩ | ⟨hx, -⟩
            · exact .inl rfl
            · exact .inr hx
          have hcount : ((cs.handling stops).afterCall cs.expireAt t rest).countP
              (fun x => cs₁.expireAt x ≤ cs₁.count) < n := by
            rw [hagrees.key_eq, hagrees.count]
            rw [List.countP_cons_of_pos (by simpa using hkey)] at hn
            have := Handling.countP_afterCall (cs.handling stops) cs.expireAt hnodup
            change _ ≤ rest.countP fun x => decide (cs.expireAt x ≤ cs.count) at this
            change List.countP (fun x => decide (_ ≤ (cs.count : ℤ))) _ ≤ _ at this
            omega
          obtain ⟨m, rfl⟩ := Nat.exists_eq_succ_of_ne_zero (show n ≠ 0 by omega)
          have hresume := Timers.stoppingLoop_resume stops (m := m) hagrees.key_eq
            hnodup hagrees.timers hroom₁ (by rw [hagrees.count]; rfl) hnext' hread
          have hrest := Timers.stoppingLoop stops (m + 1) hagrees.timers hagrees.live hroom₁ hcount
          rw [hhandling, hagrees.key_eq] at hrest
          rw [List.map_cons, Ring.first_cons, List.tail_cons, hloop, hresume]
          rcases hrest with ⟨c, key, l', cs', hwalk, hrun, hagrees'⟩ | ⟨hrun, hnone⟩
          · left
            refine ⟨t :: c, key, l', cs', Handling.Walk.call hkey hnext' hwalk, ?_, ?_⟩
            · rw [hrun]
              rfl
            · refine ⟨hagrees'.timers, hagrees'.live, hagrees'.count.trans hagrees.count, ?_⟩
              intro x
              rw [hagrees'.timer x, hagrees.timer x]
          · right
            rw [hrun]
            refine ⟨rfl, ?_⟩
            rintro c key l' (⟨hlate⟩ | ⟨-, -, hwalk⟩)
            · have hlt : (cs.count : ℤ) < cs.expireAt t := hlate t rfl
              omega
            · exact hnone _ _ _ hwalk
      · left
        have hunexpired : ¬ cs.timerIsExpired t := by
          rw [hroom.expired_iff List.mem_cons_self]
          exact hkey
        refine ⟨[], _, t :: rest, cs, Handling.Walk.stop ?_, ?_, hl, hlive, rfl, fun x => rfl⟩
        · intro x hx
          obtain rfl := Option.some.inj hx
          change (cs.count : ℤ) < _
          omega
        · rw [List.map_cons, Ring.first_cons, Clocksource.stoppingLoop, if_neg hunexpired]

/-- The function `timer_process` is the walk over the list of the timers. -/
theorem Timers.processStopping (hl : cs.Timers l) (hlive : l.Perm cs.live) (hroom : cs.Room l)
    (stops : ℕ → List ℕ) :
  (∃ c key l' cs', (cs.handling stops).Walk cs.expireAt l c key l' ∧
      cs.timerProcessStopping stops = some (cs', c) ∧ Agrees cs cs' key l') ∨
    cs.timerProcessStopping stops = none ∧
      ∀ c key l', ¬ (cs.handling stops).Walk cs.expireAt l c key l'
  := by
  have hl' : cs.clocksourceUpdate.Timers l := hl
  have hcount : l.countP (fun x => cs.expireAt x ≤ cs.count) < cs.live.length + 1 := by
    have := hlive.length_eq
    have := List.countP_le_length (p := fun x => decide (cs.expireAt x ≤ cs.count)) (l := l)
    omega
  have hprocess : cs.timerProcessStopping stops
      = cs.clocksourceUpdate.stoppingLoop stops (cs.live.length + 1)
          (Ring.first .timers (l.map .entry)) (Ring.first .timers (l.tail.map .entry)) := by
    rw [timerProcessStopping]
    simp only [Option.bind_eq_bind]
    rw [hl'.next_head, Option.bind_some, hl'.next_first, Option.bind_some]
    rfl
  rw [hprocess]
  rcases Timers.stoppingLoop stops (cs.live.length + 1) hl' hlive hroom hcount with
    ⟨c, key, l', cs', hwalk, hrun, hagrees⟩ | hnone
  · left
    exact ⟨c, key, l', cs', hwalk, hrun, hagrees.timers, hagrees.live, hagrees.count,
      hagrees.timer⟩
  · right
    exact hnone

/-- The function `timer_process` follows the entries of live timers only, and processes what is
due, exactly when no handler that it calls stops the timer behind its own, and it stops where
no timer of the list has expired. -/
theorem due_iff_spares (hl : cs.Timers l) (hlive : l.Perm cs.live) (hroom : cs.Room l)
    (stops : ℕ → List ℕ) :
  (∃ cs' c, cs.timerProcessStopping stops = some (cs', c) ∧
      (cs.handling stops).Due cs.expireAt l c) ↔
    (cs.handling stops).Spares cs.expireAt l
  := by
  have hprocess := hl.processStopping hlive hroom stops
  constructor
  · rintro ⟨cs', c, hrun, hdue⟩
    rcases hprocess with ⟨c', key, l', cs'', hwalk, hrun', -⟩ | ⟨hnone, -⟩
    · obtain ⟨rfl, rfl⟩ := Prod.mk.inj (Option.some.inj (hrun.symm.trans hrun'))
      exact hwalk.spares hl.nodup hdue.complete
    · rw [hnone] at hrun
      cases hrun
  · intro hspares
    obtain ⟨c, key, l', hwalk, hdue⟩ := hspares.walk hl.nodup
    rcases hprocess with ⟨c', key', l'', cs', hwalk', hrun, -⟩ | ⟨-, hnone⟩
    · obtain ⟨rfl, -, -⟩ := hwalk.unique hwalk'
      exact ⟨cs', c, hrun, hdue⟩
    · exact absurd hwalk (hnone _ _ _)

/-- A clock source at the tick 50 with three one-shot timers, which expired at the ticks 10, 20
and 30. -/
def threeExpired : Clocksource where
  freq := 1000
  count := 50
  tcUpdate := 0
  lists :=
    { next := fun
        | .timers => some (.entry 1)
        | .entry 1 => some (.entry 2)
        | .entry 2 => some (.entry 3)
        | _ => some .timers
      prev := fun
        | .timers => some (.entry 3)
        | .entry 3 => some (.entry 2)
        | .entry 2 => some (.entry 1)
        | _ => some .timers }
  timer := fun t => { handle := some 0, privData := 0, expireAt := 10 * t, interval := 0 }
  live := [1, 2, 3]

theorem threeExpired_timers :
  threeExpired.Timers [1, 2, 3] ∧ [1, 2, 3].Perm threeExpired.live ∧
    threeExpired.Room [1, 2, 3]
  := by
  refine ⟨⟨by decide, ⟨rfl, rfl, rfl, rfl, rfl⟩, ⟨rfl, rfl, rfl, rfl, rfl⟩⟩, List.Perm.refl _, ?_⟩
  intro t _
  simp [threeExpired]

/-- The handler of the first one of three timers stops the third one. -/
theorem due_iff_spares_third :
  (∃ cs' c, threeExpired.timerProcessStopping (fun t => if t = 1 then [3] else []) = some (cs', c) ∧
      (threeExpired.handling fun t => if t = 1 then [3] else []).Due threeExpired.expireAt
        [1, 2, 3] c) ↔
    (threeExpired.handling fun t => if t = 1 then [3] else []).Spares threeExpired.expireAt
      [1, 2, 3]
  := by
  obtain ⟨hl, hlive, hroom⟩ := threeExpired_timers
  apply due_iff_spares hl hlive hroom

/-- The handler of the first one of three timers stops the second one, whose entry is followed
afterwards. -/
theorem freed_of_stopped_next :
  threeExpired.Timers [1, 2, 3] ∧ [1, 2, 3].Perm threeExpired.live ∧
    threeExpired.Room [1, 2, 3] ∧
    ¬ ∃ cs' c, threeExpired.timerProcessStopping (fun t => if t = 1 then [2] else [])
        = some (cs', c) ∧
      (threeExpired.handling fun t => if t = 1 then [2] else []).Due threeExpired.expireAt
        [1, 2, 3] c
  := by
  obtain ⟨hl, hlive, hroom⟩ := threeExpired_timers
  refine ⟨hl, hlive, hroom, ?_⟩
  rintro ⟨cs', c, hrun, -⟩
  rcases hl.processStopping hlive hroom (fun t => if t = 1 then [2] else []) with
    ⟨_, _, _, _, hwalk, -, -⟩ | ⟨hnone, -⟩
  · rcases hwalk with ⟨hlate⟩ | ⟨-, hspared, -⟩
    · have := hlate 1 rfl
      simp [handling, threeExpired, expireAt] at this
    · exact hspared 2 rfl (by decide)
  · rw [hnone] at hrun
    cases hrun

end Clocksource

end Etaos.Time
