import Etaos.Sched.Lottery
import Mathlib.Order.Interval.Finset.Nat
import Mathlib.Tactic.Use

/-!
# The draw of the lottery class

The selection of `lottery_next_runnable`.  It draws numbers until a thread on the run queue holds
the ticket with the number that was drawn; the stream `draws` has the results of `random_m`.

A thread whose priority is from 238 to 249 takes no ticket, since `10 - 0.04 * prio` is rounded
to zero there, while the priorities above them get one.
-/

set_option linter.unusedSectionVars false

namespace Etaos.Lottery

open Lib

variable {T : Type} [DecidableEq T] [Fintype T]

/-! ### The selection -/

/-- The field `run_queue`, which is never marked. -/
def runQueue (s : Lottery T) : Option T :=
  match s.links.head () with
  | .ptr p => p
  | .signaled => none

/-- The function `lottery_single_thread_available`. -/
def lotterySingleThreadAvailable (s : Lottery T) : Bool :=
  match s.runQueue with
  | some tp => (s.links.next tp).isNone
  | none => true

/-- The loop over the tickets of a thread, from the entry `carriage` on: whether one of them has
the number `num`. -/
def ticketLoop (s : Lottery T) (num : ℕ) (runnable : T) : ℕ → TicketNode T → Option Bool
  | n, carriage =>
      if carriage = .tickets runnable then
        some false
      else
        match n with
        | 0 => none
        | n + 1 =>
            if s.ticket carriage.addr = num then
              some true
            else do
              let next ← s.lists.next carriage
              ticketLoop s num runnable n next

/-- The loop over the run queue, from the thread `runnable` on: the thread that holds the ticket
with the number `num`. -/
def runnableLoop (s : Lottery T) (num : ℕ) : ℕ → Option T → Option (Option T)
  | _, none => some none
  | 0, some _ => none
  | n + 1, some runnable => do
      let carriage ← s.lists.next (.tickets runnable)
      if ← s.ticketLoop num runnable s.allocs carriage then
        some (some runnable)
      else
        runnableLoop s num n (s.links.next runnable)

/-- The selection from the label `try_again` on, with the draws from the `i`-th one on. -/
def tryAgain (s : Lottery T) (draws : ℕ → ℕ) : ℕ → ℕ → Option (Option T)
  | 0, _ => none
  | n + 1, i => do
      match ← s.runnableLoop (draws i) (Fintype.card T) s.runQueue with
      | some runnable => some (some runnable)
      | none => if 0 < s.rqNum then tryAgain s draws n (i + 1) else some none

/-- The function `lottery_next_runnable`, when at most `n` numbers are drawn. -/
def lotteryNextRunnable (s : Lottery T) (draws : ℕ → ℕ) (n : ℕ) : Option (Option T) :=
  if s.lotterySingleThreadAvailable then some s.runQueue else s.tryAgain draws n 0

/-- The addresses of the tickets are pointers other than `NULL`. -/
def Fits (kzalloc : ℕ → ℕ) (s : Lottery T) : Prop :=
  ∀ n < s.allocs, 0 < kzalloc n ∧ kzalloc n < 2 ^ 32

/-- Every thread on the run queue holds a ticket, and when there are two or more, draws in which
every number below `num` occurs select one of them. -/
def Served (kzalloc : ℕ → ℕ) (s : Lottery T) : Prop :=
  ∃ queue, Linked s.links (fun _ => queue) ∧
    (∀ t ∈ queue, s.lists.listEmpty (.tickets t) = false) ∧
    (s.Fits kzalloc → 2 ≤ queue.length → ∀ draws : ℕ → ℕ, (∀ m < s.num, ∃ i, draws i = m) →
      ∃ n, ∃ t ∈ queue, s.lotteryNextRunnable draws n = some (some t))

/-- A thread that is killed is not on the run queue. -/
def Away (s : Lottery T) : Op T → Prop
  | .killThread tp => s.links.queue tp = none
  | _ => True

/-- The operations of the kernel. -/
def Proper (s : Lottery T) (op : Op T) : Prop :=
  s.Ok op ∧ s.Once op ∧ s.Away op

/-- A thread that is added without tickets has a priority that is given some. -/
def Ticketed (s : Lottery T) : Op T → Prop
  | .addThread tp =>
      s.lists.listEmpty (.tickets tp) → (s.prio tp).toNat < 238 ∨ 250 ≤ (s.prio tp).toNat
  | _ => True

/-! ### The walks -/

variable {kzalloc : ℕ → ℕ} {s : Lottery T} {L : TicketNode T → List (TicketNode T)}
  {queue : List T} {num : ℕ}

/-- The loop finds the ticket on the list of the thread. -/
theorem ticketLoop_eq (num : ℕ) {runnable : T} (l' : List (TicketNode T))
    {l : List (TicketNode T)} {n : ℕ} (hl : s.lists.IsList (.tickets runnable) (l' ++ l))
    (hn : l.length ≤ n) :
  s.ticketLoop num runnable n (Ring.first (.tickets runnable) l)
    = some (l.any fun e => s.ticket e.addr = num)
  := by
  induction l generalizing l' n with
  | nil => cases n <;> rw [ticketLoop, Ring.first_nil, if_pos rfl, List.any_nil]
  | cons e l ih =>
      cases n with
      | zero => cases hn
      | succ n =>
          have hne : e ≠ .tickets runnable := by
            rintro rfl
            apply hl.head_not_mem
            simp
          have hnext : s.lists.next e = some (Ring.first (.tickets runnable) l) := hl.next_node
          rw [ticketLoop, Ring.first_cons, if_neg hne, List.any_cons]
          by_cases he : s.ticket e.addr = num
          · simp [he]
          · rw [List.append_cons] at hl
            have hrest := ih (l' ++ [e]) hl (Nat.le_of_succ_le_succ hn)
            simp [he, hnext, hrest]

/-- A thread on the run queue holds the ticket with the given number. -/
def Owns (s : Lottery T) (L : TicketNode T → List (TicketNode T)) (num : ℕ) (t : T) : Bool :=
  (L (.tickets t)).any fun e => s.ticket e.addr = num

/-- The loop finds the first thread that holds the ticket. -/
theorem runnableLoop_eq (hs : Inv kzalloc s L []) {p : Option T}
    (hlive : ∀ t ∈ queue, t ∈ s.live) (hp : Chain.IsChain s.links.next p queue) {n : ℕ}
    (hn : queue.length ≤ n) :
  s.runnableLoop num n p = some (queue.find? (s.Owns L num))
  := by
  induction queue generalizing p n with
  | nil =>
      obtain rfl : p = none := hp
      cases n <;> rfl
  | cons t queue ih =>
      obtain ⟨rfl, hp⟩ := hp
      cases n with
      | zero => cases hn
      | succ n =>
          have hh := mem_heads_tickets (hlive t List.mem_cons_self)
          have hl := hs.lists.isList _ hh
          have htickets := ticketLoop_eq num [] hl (hs.length_le hh)
          have hrest := ih (fun t' ht' => hlive t' (List.mem_cons_of_mem t ht')) hp
            (Nat.le_of_succ_le_succ hn)
          rw [runnableLoop, hl.next_head]
          simp only [Option.bind_eq_bind, Option.bind_some, htickets]
          rw [← Owns, List.find?_cons]
          cases s.Owns L num t with
          | true => rfl
          | false => exact hrest

/-- A number that is drawn and held ends the draw. -/
theorem tryAgain_eq_some (draws : ℕ → ℕ)
    (hloop : ∀ m, s.runnableLoop m (Fintype.card T) s.runQueue = some (queue.find? (s.Owns L m)))
    (hnum : 0 < s.rqNum) (j : ℕ) {i : ℕ} (hj : ∃ t ∈ queue, s.Owns L (draws (i + j)) t) :
  ∃ t ∈ queue, s.tryAgain draws (j + 1) i = some (some t)
  := by
  induction j generalizing i with
  | zero =>
      obtain ⟨t, ht⟩ := Option.isSome_iff_exists.mp (List.find?_isSome.mpr hj)
      use t, List.mem_of_find?_eq_some ht
      rw [Nat.add_zero] at ht
      simp [tryAgain, hloop, ht]
  | succ j ih =>
      cases hi : queue.find? (s.Owns L (draws i)) with
      | some t =>
          use t, List.mem_of_find?_eq_some hi
          simp [tryAgain, hloop, hi]
      | none =>
          rw [← Nat.add_assoc, Nat.add_right_comm] at hj
          obtain ⟨t, ht, hdraw⟩ := ih hj
          use t, ht
          rw [tryAgain, hloop]
          simp only [Option.bind_eq_bind, Option.bind_some, hi, if_pos hnum]
          exact hdraw

/-! ### The threads on the run queue -/

/-- The invariant: the threads on the run queue are counted, set up, and hold tickets. -/
structure Queued (kzalloc : ℕ → ℕ) (s : Lottery T) (L : TicketNode T → List (TicketNode T))
    (queue : List T) : Prop where
  inv : Inv kzalloc s L []
  linked : Linked s.links fun _ => queue
  rqNum : s.rqNum = queue.length
  live : ∀ t ∈ queue, t ∈ s.live

namespace Queued

theorem boot : Queued kzalloc (boot : Lottery T) (fun _ => []) [] := by
  constructor
  · apply inv_boot
  · apply linked_nil fun _ => rfl
  · rfl
  · intro _ ht
    cases ht

theorem listEmpty_iff (hs : Queued kzalloc s L queue) {t : T} (ht : t ∈ queue) :
  s.lists.listEmpty (.tickets t) ↔ L (.tickets t) = []
  := (hs.inv.lists.isList _ (mem_heads_tickets (hs.live t ht))).listEmpty_iff

/-- Fewer tickets are allocated than the counter `num` can count. -/
theorem num_eq (hs : Queued kzalloc s L queue) (hkz : Function.Injective kzalloc)
    (hfits : s.Fits kzalloc) :
  s.num = s.allocs
  := by
  rw [hs.inv.num]
  apply Nat.mod_eq_of_lt
  have hcard : ((Finset.range s.allocs).image kzalloc).card ≤ (Finset.Ioo 0 (2 ^ 32)).card := by
    apply Finset.card_le_card
    intro a ha
    obtain ⟨n, hn, rfl⟩ := Finset.mem_image.mp ha
    exact Finset.mem_Ioo.mpr (hfits n (Finset.mem_range.mp hn))
  rw [Finset.card_image_of_injective _ hkz, Finset.card_range, Nat.card_Ioo] at hcard
  omega

/-- The number of a ticket is one of those that are drawn. -/
theorem ticket_lt (hs : Queued kzalloc s L queue) (hkz : Function.Injective kzalloc)
    (hfits : s.Fits kzalloc) {t : T} (ht : t ∈ queue) {e : TicketNode T}
    (he : e ∈ L (.tickets t)) :
  s.ticket e.addr < s.num
  := by
  have hmem := List.mem_flatMap.mpr ⟨_, mem_heads_tickets (hs.live t ht), he⟩
  obtain ⟨n, hn, rfl⟩ := hs.inv.exists_eq_ticket (List.mem_append_right [] hmem)
  rw [hs.num_eq hkz hfits, TicketNode.addr, hs.inv.ticket n hn]
  apply (Nat.mod_le _ _).trans_lt hn

/-- The run queue has two threads or more. -/
theorem not_single (hs : Queued kzalloc s L queue) (htwo : 2 ≤ queue.length) :
  s.lotterySingleThreadAvailable = false
  := by
  match queue, hs.linked, htwo with
  | t :: t' :: rest, hlinked, _ =>
      have hhead : s.links.head () = .ptr (some t) := hlinked.head_of_cons rfl
      have hchain := hlinked.chain () _ hhead
      rw [lotterySingleThreadAvailable, runQueue, hhead]
      simp [hchain.2.1]

/-- The loop over the run queue finds the thread that holds a ticket. -/
theorem runnableLoop_eq (hs : Queued kzalloc s L queue) {t : T} {rest : List T}
    (hqueue : queue = t :: rest) :
  s.runnableLoop num (Fintype.card T) s.runQueue = some (queue.find? (s.Owns L num))
  := by
  have hhead : s.links.head () = .ptr (some t) := hs.linked.head_of_cons hqueue
  rw [runQueue, hhead]
  apply Lottery.runnableLoop_eq hs.inv hs.live (hs.linked.chain () _ hhead)
  apply (hs.linked.nodup ()).length_le_card

/-- When the threads on the run queue hold tickets, the draw ends. -/
theorem served (hs : Queued kzalloc s L queue) (hkz : Function.Injective kzalloc)
    (hheld : ∀ t ∈ queue, L (.tickets t) ≠ []) :
  s.Served kzalloc
  := by
  use queue, hs.linked
  constructor
  · intro t ht
    rw [← Bool.not_eq_true, hs.listEmpty_iff ht]
    apply hheld t ht
  · intro hfits htwo draws hdraws
    have hpos : 0 < queue.length := by omega
    obtain ⟨t, rest, hqueue⟩ := List.exists_cons_of_length_pos hpos
    have ht : t ∈ queue := by simp [hqueue]
    obtain ⟨e, l, hl⟩ := List.exists_cons_of_ne_nil (hheld t ht)
    have he : e ∈ L (.tickets t) := by simp [hl]
    obtain ⟨i, hi⟩ := hdraws _ (hs.ticket_lt hkz hfits ht he)
    have howns : s.Owns L (draws (0 + i)) t := by
      rw [Owns, List.any_eq_true]
      use e, he
      simp [hi]
    have hnum : 0 < s.rqNum := by rwa [hs.rqNum]
    obtain ⟨t', ht', hdraw⟩ := tryAgain_eq_some draws
      (fun m => hs.runnableLoop_eq hqueue) hnum i ⟨t, ht, howns⟩
    use i + 1, t', ht'
    rw [lotteryNextRunnable, hs.not_single htwo]
    exact hdraw

/-- When no thread on the run queue holds a ticket, the draw does not end. -/
theorem not_drawn (hs : Queued kzalloc s L queue) (htwo : 2 ≤ queue.length)
    (hnil : ∀ t ∈ queue, L (.tickets t) = []) (draws : ℕ → ℕ) (n : ℕ) :
  s.lotteryNextRunnable draws n = none
  := by
  have hpos : 0 < queue.length := by omega
  obtain ⟨t, rest, hqueue⟩ := List.exists_cons_of_length_pos hpos
  have hloop (m : ℕ) : s.runnableLoop m (Fintype.card T) s.runQueue = some none := by
    rw [hs.runnableLoop_eq hqueue, Option.some_inj, List.find?_eq_none]
    intro t ht
    simp [Owns, hnil t ht]
  have hnum : 0 < s.rqNum := by rwa [hs.rqNum]
  have htry (i : ℕ) : s.tryAgain draws n i = none := by
    induction n generalizing i with
    | zero => rfl
    | succ n ih =>
        rw [tryAgain, hloop]
        simp only [Option.bind_eq_bind, Option.bind_some, if_pos hnum]
        apply ih
  rw [lotteryNextRunnable, hs.not_single htwo]
  exact htry 0

/-- A thread on the run queue that holds no ticket is not served. -/
theorem not_served (hs : Queued kzalloc s L queue) {t : T} (ht : t ∈ queue)
    (hnil : L (.tickets t) = []) :
  ¬ s.Served kzalloc
  := by
  rintro ⟨queue', hlinked, hheld, -⟩
  have hsame : queue = queue' := congrFun (hs.linked.unique hlinked) ()
  rw [hsame] at ht
  have hempty := hheld t ht
  rw [← hsame] at ht
  rw [← Bool.not_eq_true, hs.listEmpty_iff ht] at hempty
  apply hempty hnil

/-- When no thread on the run queue loses its tickets, they all hold some. -/
theorem held_of_sameHeld {tp : Option T} {L' : TicketNode T → List (TicketNode T)}
    (hsame : SameHeld tp L L') (htp : ∀ t ∈ queue, tp ≠ some t)
    (hheld : ∀ t ∈ queue, L (.tickets t) ≠ []) :
  ∀ t ∈ queue, L' (.tickets t) ≠ []
  := by
  intro t ht
  rw [hsame t (htp t ht)]
  apply hheld t ht

/-- The run queue stays when the threads do. -/
theorem of_sameThreads (hs : Queued kzalloc s L queue) {s' : Lottery T}
    {L' : TicketNode T → List (TicketNode T)} (hinv : Inv kzalloc s' L' [])
    (hsame : s.SameThreads s') :
  Queued kzalloc s' L' queue
  := by
  constructor
  · apply hinv
  · rw [hsame.links]
    apply hs.linked
  · rw [hsame.rqNum, hs.rqNum]
  · rw [hsame.live]
    apply hs.live

/-- A thread goes on the run queue. -/
theorem add (hs : Queued kzalloc s L queue) (hkz : Function.Injective kzalloc) {tp : T}
    (hlive : tp ∈ s.live) (hqueue : s.links.queue tp = none) {s' : Lottery T}
    (hstep : s.lotteryAddThread kzalloc tp = some s') :
  ∃ L' queue', Queued kzalloc s' L' queue' ∧ SameHeld (some tp) L L' ∧
    (∀ t, t ∈ queue' ↔ t = tp ∨ t ∈ queue) ∧
    (L' (.tickets tp) = [] ↔ L (.tickets tp) = [] ∧ ticketCount (s.prio tp) = 0)
  := by
  obtain ⟨s₁, L₁, hinv, hsame, hheld, hnil, hadd⟩ := hs.inv.lotteryAddThread hkz hlive
  obtain ⟨links, hlinks, hlinked⟩ := hs.linked.insert
    (fun thread => s.priority thread ≤ s.priority tp) () (hs.linked.notMem hqueue)
  rw [hadd, Links.rrSharedQueueInsert, hlinks] at hstep
  obtain rfl := Option.some.inj hstep
  let keep : T → Bool := fun thread => s.priority thread ≤ s.priority tp
  have hmem (t : T) :
      t ∈ queue.takeWhile keep ++ tp :: queue.dropWhile keep ↔ t = tp ∨ t ∈ queue := by
    conv_rhs => rw [← List.takeWhile_append_dropWhile (p := keep) (l := queue)]
    simp only [List.mem_append, List.mem_cons]
    tauto
  refine ⟨L₁, _, ⟨hinv.congr links _ _ _, ?_, ?_, ?_⟩, hheld, hmem, hnil⟩
  · convert hlinked using 1
    funext r
    rw [Function.update_self]
  · dsimp only
    rw [hsame.rqNum, hs.rqNum, List.length_append, List.length_cons, ← Nat.add_assoc,
      ← List.length_append, List.takeWhile_append_dropWhile]
  · intro t ht
    show t ∈ s₁.live
    rw [hsame.live]
    rcases (hmem t).mp ht with rfl | ht
    · apply hlive
    · apply hs.live t ht

/-- A thread is taken off the run queue, when it is on it. -/
theorem remove (hs : Queued kzalloc s L queue) {tp : T} {s' : Lottery T} {rc : Int}
    (hstep : s.lotteryRemoveThread tp = some (s', rc)) :
  Queued kzalloc s' L (queue.erase tp)
  := by
  obtain ⟨links, hlinks, hlinked⟩ := hs.linked.remove () tp
  rw [lotteryRemoveThread, hlinks] at hstep
  obtain ⟨rfl, -⟩ := Prod.mk.inj (Option.some.inj hstep)
  refine ⟨hs.inv.congr links _ _ _, ?_, ?_, ?_⟩
  · convert hlinked using 1
    funext r
    rw [Function.update_self]
  · dsimp only
    by_cases htp : tp ∈ queue
    · rw [if_pos htp, if_pos (by decide), hs.rqNum, List.length_erase_of_mem htp]
    · rw [if_neg htp, if_neg (by decide), hs.rqNum, List.erase_of_not_mem htp]
  · intro t ht
    apply hs.live t (List.mem_of_mem_erase ht)

theorem ticketCount_eq_zero_iff (prio : UInt8) :
  ticketCount prio = 0 ↔ ¬ (prio.toNat < 238 ∨ 250 ≤ prio.toNat)
  := by
  rw [ticketCount]
  split <;> omega

/-- An operation leaves all the threads on the run queue with tickets exactly when the thread it
adds has some or is given some. -/
theorem step (hs : Queued kzalloc s L queue) (hkz : Function.Injective kzalloc)
    (hheld : ∀ t ∈ queue, L (.tickets t) ≠ []) {op : Op T} (hop : s.Proper op)
    {s' : Lottery T} (hstep : s.step kzalloc op = some s') :
  ∃ L' queue', Queued kzalloc s' L' queue' ∧
    ((∀ t ∈ queue', L' (.tickets t) ≠ []) ↔ s.Ticketed op)
  := by
  obtain ⟨hok, honce, haway⟩ := hop
  have hother {tp : T} (htp : s.links.queue tp = none) : ∀ t ∈ queue, some tp ≠ some t := by
    rintro t ht ⟨⟩
    apply hs.linked.notMem htp () ht
  cases op with
  | init =>
      obtain ⟨s₁, L₁, hs₁, hinv, hsame, hsameHeld⟩ := hs.inv.lotteryInit hkz hok
      obtain rfl := Option.some.inj (hs₁.symm.trans hstep)
      use L₁, queue, hs.of_sameThreads hinv hsame
      exact iff_of_true (held_of_sameHeld hsameHeld nofun hheld) trivial
  | rawThreadInit tp prio =>
      obtain rfl := Option.some.inj hstep
      obtain ⟨L₁, hinv, hsameHeld⟩ := hs.inv.rawThreadInit prio hok
      use L₁, queue
      constructor
      · refine ⟨hinv, hs.linked.clear (hs.linked.notMem honce), hs.rqNum, ?_⟩
        intro t ht
        rw [Lottery.rawThreadInit]
        split
        · apply hs.live t ht
        · exact List.mem_cons_of_mem tp (hs.live t ht)
      · exact iff_of_true (held_of_sameHeld hsameHeld (hother honce) hheld) trivial
  | addThread tp =>
      obtain ⟨L₁, queue', hqueued, hsameHeld, hmem, hnil⟩ := hs.add hkz hok honce hstep
      use L₁, queue', hqueued
      have hempty := (hs.inv.lists.isList _ (mem_heads_tickets hok)).listEmpty_iff
      have hrest := held_of_sameHeld hsameHeld (hother honce) hheld
      simp only [hmem, forall_eq_or_imp, and_iff_left hrest, ne_eq, hnil, Ticketed, hempty,
        ticketCount_eq_zero_iff]
      tauto
  | removeThread tp =>
      obtain ⟨⟨s₁, rc⟩, hremove, rfl⟩ := Option.map_eq_some_iff.mp hstep
      use L, queue.erase tp, hs.remove hremove
      exact iff_of_true (fun t ht => hheld t (List.mem_of_mem_erase ht)) trivial
  | killThread tp =>
      obtain ⟨s₁, L₁, hs₁, hinv, hsame, hsameHeld, -⟩ := hs.inv.lotteryKillThread hkz hok
      obtain rfl := Option.some.inj (hs₁.symm.trans hstep)
      use L₁, queue, hs.of_sameThreads hinv hsame
      exact iff_of_true (held_of_sameHeld hsameHeld (hother haway) hheld) trivial
  | setPrio tp prio dprio =>
      obtain rfl := Option.some.inj hstep
      use L, queue, ⟨hs.inv.congr _ _ _ _, hs.linked, hs.rqNum, hs.live⟩
      exact iff_of_true hheld trivial

end Queued

/-! ### Every thread can win -/

/-- In a run of the kernel, the threads are served in every state exactly when every thread that
is added without tickets has a priority that is given some. -/
theorem served_iff_ticketed (hkz : Function.Injective kzalloc) {ops : List (Op T)}
    (hok : Run.Meets (step kzalloc) Proper boot ops) {s' : Lottery T}
    (hrun : Run.exec (step kzalloc) boot ops = some s') :
  Run.Meets (step kzalloc) (fun s op => ∀ t, s.step kzalloc op = some t → t.Served kzalloc)
      boot ops ↔
    Run.Meets (step kzalloc) Ticketed boot ops
  := by
  have hboot : ∃ L queue, Queued kzalloc (boot : Lottery T) L queue ∧
      ∀ t ∈ queue, L (.tickets t) ≠ [] :=
    ⟨_, [], Queued.boot, by simp⟩
  have hcongr : Run.Meets (step kzalloc)
        (fun s op => s.Proper op ∧ ∀ t, s.step kzalloc op = some t → t.Served kzalloc) boot ops ↔
      Run.Meets (step kzalloc) (fun s op => s.Proper op ∧ s.Ticketed op) boot ops := by
    apply Run.Meets.congr
      (fun s => ∃ L queue, Queued kzalloc s L queue ∧ ∀ t ∈ queue, L (.tickets t) ≠ [])
      ?_ ?_ hboot hrun
    · rintro s op t ⟨L, queue, hs, hheld⟩ ht
      apply and_congr_right
      intro hop
      obtain ⟨L', queue', hs', hiff⟩ := hs.step hkz hheld hop ht
      rw [← hiff]
      constructor
      · intro hserved t' ht' hnil
        apply hs'.not_served ht' hnil (hserved t ht)
      · intro hheld' t' ht'
        obtain rfl := Option.some.inj (ht.symm.trans ht')
        apply hs'.served hkz hheld'
    · rintro s op t ⟨L, queue, hs, hheld⟩ ⟨hop, hserved⟩ ht
      obtain ⟨L', queue', hs', -⟩ := hs.step hkz hheld hop ht
      use L', queue', hs'
      intro t' ht' hnil
      apply hs'.not_served ht' hnil (hserved t ht)
  rw [Run.meets_and, Run.meets_and, and_iff_right hok, and_iff_right hok] at hcongr
  exact hcongr

instance (s : Lottery T) : (op : Op T) → Decidable (Away s op)
  | .killThread _ => inferInstanceAs (Decidable (_ = _))
  | .init => inferInstanceAs (Decidable True)
  | .rawThreadInit _ _ => inferInstanceAs (Decidable True)
  | .addThread _ => inferInstanceAs (Decidable True)
  | .removeThread _ => inferInstanceAs (Decidable True)
  | .setPrio _ _ _ => inferInstanceAs (Decidable True)

instance (s : Lottery T) (op : Op T) : Decidable (Proper s op) :=
  inferInstanceAs (Decidable (_ ∧ _ ∧ _))

instance (s : Lottery T) : (op : Op T) → Decidable (Ticketed s op)
  | .addThread _ => inferInstanceAs (Decidable (_ → _))
  | .init => inferInstanceAs (Decidable True)
  | .rawThreadInit _ _ => inferInstanceAs (Decidable True)
  | .removeThread _ => inferInstanceAs (Decidable True)
  | .killThread _ => inferInstanceAs (Decidable True)
  | .setPrio _ _ _ => inferInstanceAs (Decidable True)

/-- Two threads of the priorities 120 and 237 are served. -/
theorem served_iff_ticketed_two :
  Run.Meets (step fun n => 4 * n + 100)
    (fun s op => ∀ t, s.step (fun n => 4 * n + 100) op = some t →
      t.Served fun n => 4 * n + 100)
    (boot : Lottery (Fin 2))
    [.init, .rawThreadInit 0 120, .addThread 0, .rawThreadInit 1 237, .addThread 1]
  := by
  have hkz : Function.Injective fun n => 4 * n + 100 := by
    intro n m hnm
    dsimp only at hnm
    omega
  obtain ⟨s, hs, -⟩ := Run.exists_of_any (step fun n => 4 * n + 100) (boot : Lottery (Fin 2))
    [.init, .rawThreadInit 0 120, .addThread 0, .rawThreadInit 1 237, .addThread 1]
    (fun _ => true) (by decide +kernel)
  apply (served_iff_ticketed hkz (by decide +kernel) hs).mpr
  decide +kernel

/-- A thread of the priority 240 is added, and it has no ticket. -/
theorem not_served_of_prio_eq :
  ∃ s, Run.Meets (step fun n => 4 * n + 100) Proper (boot : Lottery (Fin 2))
      [.init, .rawThreadInit 0 240, .addThread 0, .rawThreadInit 1 240, .addThread 1] ∧
    Run.exec (step fun n => 4 * n + 100) (boot : Lottery (Fin 2))
      [.init, .rawThreadInit 0 240, .addThread 0, .rawThreadInit 1 240, .addThread 1] = some s ∧
    ¬ s.Served fun n => 4 * n + 100
  := by
  obtain ⟨s, hs, htest⟩ := Run.exists_of_any (step fun n => 4 * n + 100)
    (boot : Lottery (Fin 2))
    [.init, .rawThreadInit 0 240, .addThread 0, .rawThreadInit 1 240, .addThread 1]
    (fun s => s.lists.listEmpty (.tickets 0) ∧ s.links.head () = .ptr (some 0)) (by decide +kernel)
  obtain ⟨hempty, hhead⟩ := of_decide_eq_true htest
  use s
  refine ⟨by decide +kernel, hs, ?_⟩
  rintro ⟨queue, hlinked, hheld, -⟩
  have hmem : (0 : Fin 2) ∈ queue := List.mem_of_mem_head? (hlinked.head_eq hhead)
  have hne := hheld 0 hmem
  rw [hempty] at hne
  cases hne

end Etaos.Lottery
