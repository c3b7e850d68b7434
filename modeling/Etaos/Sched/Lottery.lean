import Etaos.Lib.List
import Etaos.Library.Run
import Etaos.Sched.QueueSpec

/-!
# The lottery class

The tickets of the scheduling class of `lottery.c`.  A ticket is on the list of the pool or on
the list of a thread.  A thread that is added to the run queue without tickets takes some from
the pool, which grows when it is empty, and gives them back when it is killed.

The function `kzalloc` gives the addresses of the tickets, in the order in which they are
allocated.  Tickets are not freed, so that it is injective.
-/

set_option linter.unusedSectionVars false

namespace Etaos

open Lib

/-- The list heads in memory: the pool `lottery_tickets.tickets`, the field `se.tickets` of a
thread, and the field `list` of the ticket at an address. -/
inductive TicketNode (T : Type) where
  | pool
  | tickets (tp : T)
  | ticket (addr : ℕ)
  deriving DecidableEq

/-- The tickets and the run queue of the lottery class. -/
structure Lottery (T : Type) where
  lists : ListHeads (TicketNode T)
  /-- The field `ticket` of the ticket at an address, an `unsigned short`. -/
  ticket : ℕ → ℕ
  /-- The field `lottery_tickets.num`, an `unsigned long`. -/
  num : ℕ
  /-- The number of tickets that were allocated. -/
  allocs : ℕ
  /-- The threads whose records are set up. -/
  live : List T
  links : Links T Unit
  /-- The field `num` of the run queue. -/
  rqNum : ℕ
  prio : T → UInt8
  dprio : T → UInt8

/-- The address of a ticket. -/
def TicketNode.addr {T : Type} : TicketNode T → ℕ
  | .ticket addr => addr
  | _ => 0

namespace Lottery

variable {T : Type} [DecidableEq T] [Fintype T]

/-! ### The class functions -/

/-- The constant `LOTTERY_POOL_SIZE`. -/
def poolSize : ℕ := 20

/-- The constant `LOTTERY_RESIZE_SIZE`. -/
def resizeSize : ℕ := 5

/-- The function `prio`. -/
def priority (s : Lottery T) (tp : T) : ℕ :=
  (s.prio tp).toNat - (s.dprio tp).toNat

/-- The number of tickets of a thread: `10 - 0.04 * prio` rounded to an integer, and one for the
priorities from 250 on.  No value is so near to a half that the rounding of a `double` matters. -/
def ticketCount (prio : UInt8) : ℕ :=
  if prio.toNat < 250 then (1050 - 4 * prio.toNat) / 100 else 1

/-- A ticket with the given number is allocated and put into the pool. -/
def newTicket (kzalloc : ℕ → ℕ) (s : Lottery T) (number : ℕ) : Option (Lottery T) := do
  let ticket := kzalloc s.allocs
  let lists ← s.lists.listAdd (.ticket ticket) .pool
  some { s with
    lists
    ticket := Function.update s.ticket ticket (number % 2 ^ 16)
    allocs := s.allocs + 1 }

/-- The function `lottery_generate_tickets`. -/
def lotteryGenerateTickets (kzalloc : ℕ → ℕ) : ℕ → Lottery T → Option (Lottery T)
  | 0, s => some s
  | n + 1, s => do
      let s ← { s with num := (s.num + 1) % 2 ^ 32 }.newTicket kzalloc s.num
      lotteryGenerateTickets kzalloc n s

/-- An empty pool grows before a ticket is taken from it. -/
def fillPool (kzalloc : ℕ → ℕ) (s : Lottery T) : Option (Lottery T) :=
  if s.lists.listEmpty .pool then
    lotteryGenerateTickets kzalloc resizeSize s
  else
    some s

/-- The function `lottery_take_ticket`. -/
def lotteryTakeTicket (kzalloc : ℕ → ℕ) (s : Lottery T) :
    Option (Lottery T × TicketNode T) := do
  let s ← s.fillPool kzalloc
  let ticketEntry ← s.lists.next .pool
  let lists ← s.lists.listDel ticketEntry
  some ({ s with lists }, ticketEntry)

/-- The loop of `lottery_add_thread` that takes tickets for the thread. -/
def takeTickets (kzalloc : ℕ → ℕ) (tp : T) : ℕ → Lottery T → Option (Lottery T)
  | 0, s => some s
  | n + 1, s => do
      let (s, ticket) ← s.lotteryTakeTicket kzalloc
      let lists ← s.lists.listAdd ticket (.tickets tp)
      takeTickets kzalloc tp n { s with lists }

/-- A thread without tickets takes some before it is added. -/
def assignTickets (kzalloc : ℕ → ℕ) (s : Lottery T) (tp : T) : Option (Lottery T) :=
  if s.lists.listEmpty (.tickets tp) then
    takeTickets kzalloc tp (ticketCount (s.prio tp)) s
  else
    some s

/-- The function `lottery_add_thread`. -/
def lotteryAddThread (kzalloc : ℕ → ℕ) (s : Lottery T) (tp : T) : Option (Lottery T) := do
  let s ← s.assignTickets kzalloc tp
  let links ← s.links.rrSharedQueueInsert s.priority () tp
  some { s with links, rqNum := s.rqNum + 1 }

/-- The function `lottery_remove_thread`. -/
def lotteryRemoveThread (s : Lottery T) (tp : T) : Option (Lottery T × Int) :=
  (s.links.rrSharedQueueRemove () tp).map fun (links, rc) =>
    ({ s with links, rqNum := if rc = 0 then s.rqNum - 1 else s.rqNum }, rc)

/-- The function `lottery_return_ticket`. -/
def lotteryReturnTicket (s : Lottery T) (ticket : TicketNode T) : Option (Lottery T) := do
  let lists ← s.lists.listDel ticket
  let lists ← lists.listAdd ticket .pool
  some { s with lists }

/-- The loop of `lottery_kill_thread`, from the entry `carriage` on. -/
def killLoop (tp : T) : ℕ → TicketNode T → Lottery T → Option (Lottery T)
  | n, carriage, s =>
      if carriage = .tickets tp then
        some s
      else
        match n with
        | 0 => none
        | n + 1 => do
            let tmp ← s.lists.next carriage
            let s ← s.lotteryReturnTicket carriage
            killLoop tp n tmp s

/-- The function `lottery_kill_thread`. -/
def lotteryKillThread (s : Lottery T) (tp : T) : Option (Lottery T) := do
  let carriage ← s.lists.next (.tickets tp)
  killLoop tp s.allocs carriage s

/-- The loop of `lottery_init`, which allocates the tickets from the number `idx` on. -/
def initLoop (kzalloc : ℕ → ℕ) : ℕ → ℕ → Lottery T → Option (Lottery T)
  | 0, _, s => some s
  | n + 1, idx, s => do
      let s ← s.newTicket kzalloc idx
      initLoop kzalloc n (idx + 1) s

/-- The function `lottery_init`. -/
def lotteryInit (kzalloc : ℕ → ℕ) (s : Lottery T) : Option (Lottery T) := do
  let s ← initLoop kzalloc poolSize 0 s
  some { s with num := poolSize }

/-- The function `raw_thread_init`: the record of the thread is cleared, and its list of tickets
is set up. -/
def rawThreadInit (s : Lottery T) (tp : T) (prio : UInt8) : Lottery T :=
  { s with
    lists := s.lists.listHeadInit (.tickets tp)
    live := if tp ∈ s.live then s.live else tp :: s.live
    links := s.links.clear tp
    prio := Function.update s.prio tp prio
    dprio := Function.update s.dprio tp 0 }

/-! ### Runs -/

/-- The operations of the class, the set up of threads, and changes of their priorities. -/
inductive Op (T : Type) where
  | init
  | rawThreadInit (tp : T) (prio : UInt8)
  | addThread (tp : T)
  | removeThread (tp : T)
  | killThread (tp : T)
  | setPrio (tp : T) (prio dprio : UInt8)

/-- The thread whose tickets an operation is about. -/
def Op.thread : Op T → Option T
  | .rawThreadInit tp _ => some tp
  | .addThread tp => some tp
  | .killThread tp => some tp
  | _ => none

/-- The state after an operation. -/
def step (kzalloc : ℕ → ℕ) (s : Lottery T) : Op T → Option (Lottery T)
  | .init => s.lotteryInit kzalloc
  | .rawThreadInit tp prio => some (s.rawThreadInit tp prio)
  | .addThread tp => s.lotteryAddThread kzalloc tp
  | .removeThread tp => (s.lotteryRemoveThread tp).map Prod.fst
  | .killThread tp => s.lotteryKillThread tp
  | .setPrio tp prio dprio => some { s with
      prio := Function.update s.prio tp prio
      dprio := Function.update s.dprio tp dprio }

/-- The memory before the first operation. -/
def boot : Lottery T where
  lists := ListHeads.listHeadInit { next := fun _ => none, prev := fun _ => none } .pool
  ticket _ := 0
  num := 0
  allocs := 0
  live := []
  links :=
    { head := fun _ => .ptr none, next := fun _ => none, queue := fun _ => none, ec := fun _ => 0 }
  rqNum := 0
  prio _ := 0
  dprio _ := 0

/-- The class is initialized before there are tickets, a thread is set up before it is added or
killed, and it is killed before its record is set up again. -/
def Ok (s : Lottery T) : Op T → Prop
  | .init => s.allocs = 0
  | .rawThreadInit tp _ => tp ∈ s.live → s.lists.listEmpty (.tickets tp)
  | .addThread tp => tp ∈ s.live
  | .killThread tp => tp ∈ s.live
  | _ => True

instance (s : Lottery T) : (op : Op T) → Decidable (Ok s op)
  | .init => inferInstanceAs (Decidable (_ = _))
  | .rawThreadInit _ _ => inferInstanceAs (Decidable (_ → _))
  | .addThread _ => inferInstanceAs (Decidable (_ ∈ _))
  | .killThread _ => inferInstanceAs (Decidable (_ ∈ _))
  | .removeThread _ => inferInstanceAs (Decidable True)
  | .setPrio _ _ _ => inferInstanceAs (Decidable True)

/-- A thread that is added, or whose record is cleared, is not on the run queue. -/
def Once (s : Lottery T) : Op T → Prop
  | .rawThreadInit tp _ => s.links.queue tp = none
  | .addThread tp => s.links.queue tp = none
  | _ => True

instance (s : Lottery T) : (op : Op T) → Decidable (Once s op)
  | .rawThreadInit _ _ => inferInstanceAs (Decidable (_ = _))
  | .addThread _ => inferInstanceAs (Decidable (_ = _))
  | .init => inferInstanceAs (Decidable True)
  | .killThread _ => inferInstanceAs (Decidable True)
  | .removeThread _ => inferInstanceAs (Decidable True)
  | .setPrio _ _ _ => inferInstanceAs (Decidable True)

/-- The threads that are alive after an operation: a thread is alive from the set up of its record,
or from when it is added, until it is killed. -/
def Op.alive (threads : List T) : Op T → List T
  | .rawThreadInit tp _ => threads.insert tp
  | .addThread tp => threads.insert tp
  | .killThread tp => threads.erase tp
  | _ => threads

/-- The threads that are alive after the operations from the first one on. -/
def alive (ops : List (Op T)) : List T :=
  ops.foldl Op.alive []

/-- The tickets of the pool and those of the threads have the numbers below `num`, each once, and
no number is held by two threads. -/
structure Conserved (s : Lottery T) (threads : List T) (free : List ℕ) (held : T → List ℕ) :
    Prop where
  pool : s.lists.IsList .pool (free.map .ticket)
  tickets : ∀ t ∈ threads, s.lists.IsList (.tickets t) ((held t).map .ticket)
  numbers : ((free ++ threads.flatMap held).map s.ticket).Perm (List.range s.num)
  unique : ∀ t ∈ threads, ∀ t' ∈ threads, ∀ x ∈ held t, ∀ x' ∈ held t',
    s.ticket x = s.ticket x' → t = t'

/-! ### The stock of tickets -/

/-- The heads of the lists of tickets. -/
def heads (s : Lottery T) : List (TicketNode T) :=
  s.live.map .tickets ++ [.pool]

/-- The lists of tickets are `L`, and with the tickets `out` that are on no list they hold every
ticket that was allocated. -/
structure Stocked (kzalloc : ℕ → ℕ) (s : Lottery T) (L : TicketNode T → List (TicketNode T))
    (out : List (TicketNode T)) : Prop where
  lists : s.lists.IsLists s.heads L
  all : (out ++ s.heads.flatMap L).Perm
    ((List.range s.allocs).map fun n => .ticket (kzalloc n))
  ticket : ∀ n < s.allocs, s.ticket (kzalloc n) = n % 2 ^ 16

/-- The run queue and the threads are the same. -/
structure SameThreads (s s' : Lottery T) : Prop where
  live : s'.live = s.live
  links : s'.links = s.links
  rqNum : s'.rqNum = s.rqNum
  prio : s'.prio = s.prio
  dprio : s'.dprio = s.dprio

/-- The threads other than `tp` hold the same tickets. -/
def SameHeld (tp : Option T) (L L' : TicketNode T → List (TicketNode T)) : Prop :=
  ∀ t, tp ≠ some t → L' (.tickets t) = L (.tickets t)

variable {kzalloc : ℕ → ℕ} {s : Lottery T} {L : TicketNode T → List (TicketNode T)}
  {out : List (TicketNode T)} {e h : TicketNode T}

theorem SameThreads.trans {s' s'' : Lottery T} (h : s.SameThreads s') (h' : s'.SameThreads s'') :
  s.SameThreads s''
  := ⟨h'.live.trans h.live, h'.links.trans h.links, h'.rqNum.trans h.rqNum,
    h'.prio.trans h.prio, h'.dprio.trans h.dprio⟩

theorem SameHeld.refl (tp : Option T) (L : TicketNode T → List (TicketNode T)) :
  SameHeld tp L L
  := fun _ _ => rfl

theorem SameHeld.trans {tp : Option T} {L' L'' : TicketNode T → List (TicketNode T)}
    (h : SameHeld tp L L') (h' : SameHeld tp L' L'') :
  SameHeld tp L L''
  := fun t ht => (h' t ht).trans (h t ht)

theorem SameHeld.of_none {tp : Option T} {L' : TicketNode T → List (TicketNode T)}
    (h : SameHeld none L L') :
  SameHeld tp L L'
  := fun t _ => h t nofun

theorem sameHeld_pool {tp : Option T} {l : List (TicketNode T)} :
  SameHeld tp L (Function.update L .pool l)
  := by
  intro t _
  apply Function.update_of_ne
  simp

theorem sameHeld_tickets {tp : T} {l : List (TicketNode T)} :
  SameHeld (some tp) L (Function.update L (.tickets tp) l)
  := by
  intro t ht
  apply Function.update_of_ne
  rintro ⟨⟩
  apply ht rfl

/-- The pool is one of the lists. -/
theorem mem_heads_pool : .pool ∈ s.heads := by
  simp [heads]

theorem mem_heads_tickets {tp : T} (htp : tp ∈ s.live) : .tickets tp ∈ s.heads := by
  simp [heads, htp]

namespace Stocked

/-- The tickets are the ones that were allocated. -/
theorem exists_eq_ticket (hs : Stocked kzalloc s L out) (he : e ∈ out ++ s.heads.flatMap L) :
  ∃ n < s.allocs, e = .ticket (kzalloc n)
  := by
  obtain ⟨n, hn, rfl⟩ := List.mem_map.mp (hs.all.mem_iff.mp he)
  exact ⟨n, List.mem_range.mp hn, rfl⟩

/-- A ticket is no list. -/
theorem notMem_heads (n : ℕ) : .ticket n ∉ s.heads := by
  simp [heads]

/-- No ticket is on two lists, or twice on one. -/
theorem nodup (hs : Stocked kzalloc s L out) (hkz : Function.Injective kzalloc) :
  (out ++ s.heads.flatMap L).Nodup
  := by
  rw [hs.all.nodup_iff]
  apply List.Nodup.map _ List.nodup_range
  intro n m hnm
  apply hkz
  exact TicketNode.ticket.inj hnm

/-- A ticket in hand is given to a list. -/
theorem give (hs : Stocked kzalloc s L (e :: out)) (hkz : Function.Injective kzalloc)
    (hh : h ∈ s.heads) :
  ∃ lists, s.lists.listAdd e h = some lists ∧
    Stocked kzalloc { s with lists } (Function.update L h (e :: L h)) out
  := by
  have he : e ∉ s.heads ++ s.heads.flatMap L := by
    obtain ⟨n, -, rfl⟩ := hs.exists_eq_ticket (e := e) (by simp)
    have hnodup := hs.nodup hkz
    rw [List.cons_append, List.nodup_cons, List.mem_append, not_or] at hnodup
    rw [List.mem_append, not_or]
    exact ⟨notMem_heads _, hnodup.1.2⟩
  obtain ⟨lists, hlists, hlists'⟩ := hs.lists.listAdd hh he
  refine ⟨lists, hlists, hlists', ?_, hs.ticket⟩
  have hgive := Shares.perm_give (L := L) hs.lists.heads_nodup hh e
  apply (hgive.append_left out).trans
  apply List.perm_middle.trans
  apply hs.all

/-- The first ticket of a list is taken. -/
theorem take (hs : Stocked kzalloc s L out) (hh : h ∈ s.heads) {l : List (TicketNode T)}
    (hl : L h = e :: l) :
  ∃ lists, s.lists.listDel e = some lists ∧
    Stocked kzalloc { s with lists } (Function.update L h l) (e :: out)
  := by
  obtain ⟨lists, hlists, hlists', -⟩ := hs.lists.listDel (a := []) hh hl
  refine ⟨lists, hlists, hlists', ?_, hs.ticket⟩
  have htake := Shares.perm_take (a := []) hs.lists.heads_nodup hh hl
  apply List.perm_middle.symm.trans
  apply (htake.append_left out).trans hs.all

/-- A ticket is allocated. -/
theorem alloc (hs : Stocked kzalloc s L out) (hkz : Function.Injective kzalloc) {number : ℕ}
    (hnumber : number % 2 ^ 16 = s.allocs % 2 ^ 16) :
  Stocked kzalloc { s with
      ticket := Function.update s.ticket (kzalloc s.allocs) (number % 2 ^ 16)
      allocs := s.allocs + 1 } L (.ticket (kzalloc s.allocs) :: out)
  := by
  constructor
  · exact hs.lists
  · dsimp only
    rw [List.range_succ, List.map_append, List.map_singleton]
    apply (hs.all.cons _).trans
    apply (List.perm_append_singleton _ _).symm
  · intro n hn
    dsimp only at hn ⊢
    rcases Nat.lt_succ_iff_lt_or_eq.mp hn with hlt | rfl
    · rw [Function.update_of_ne]
      · apply hs.ticket n hlt
      · intro heq
        apply hlt.ne (hkz heq)
    · rw [Function.update_self, hnumber]

/-- A new ticket goes into the pool. -/
theorem newTicket (hs : Stocked kzalloc s L out) (hkz : Function.Injective kzalloc) {number : ℕ}
    (hnumber : number % 2 ^ 16 = s.allocs % 2 ^ 16) :
  ∃ s' L', s.newTicket kzalloc number = some s' ∧ Stocked kzalloc s' L' out ∧
    s'.allocs = s.allocs + 1 ∧ s'.num = s.num ∧ s.SameThreads s' ∧
    L' = Function.update L .pool (.ticket (kzalloc s.allocs) :: L .pool)
  := by
  obtain ⟨lists, hlists, hs'⟩ := (hs.alloc hkz hnumber).give hkz mem_heads_pool
  refine ⟨_, _, ?_, hs', rfl, rfl, ⟨rfl, rfl, rfl, rfl, rfl⟩, rfl⟩
  rw [Lottery.newTicket, hlists]
  rfl

end Stocked

/-- The invariant: the field `num` counts the tickets as well. -/
structure Inv (kzalloc : ℕ → ℕ) (s : Lottery T) (L : TicketNode T → List (TicketNode T))
    (out : List (TicketNode T)) : Prop extends Stocked kzalloc s L out where
  num : s.num = s.allocs % 2 ^ 32

/-- Before the first call there are no tickets. -/
theorem inv_boot : Inv kzalloc (boot : Lottery T) (fun _ => []) [] := by
  have hlist := ListHeads.isList_listHeadInit
    { next := fun _ => none, prev := fun _ => none : ListHeads (TicketNode T) } .pool
  refine ⟨⟨⟨?_, ?_⟩, ?_, ?_⟩, rfl⟩
  · intro h hh
    obtain rfl : h = .pool := by simpa [heads, boot] using hh
    apply hlist
  · simp [heads, boot]
  · simp [boot]
  · simp [boot]

namespace Inv

/-- The pool grows. -/
theorem lotteryGenerateTickets (hkz : Function.Injective kzalloc) :
    ∀ (n : ℕ) {s : Lottery T} {L : TicketNode T → List (TicketNode T)}, Inv kzalloc s L out →
      ∃ s' L', lotteryGenerateTickets kzalloc n s = some s' ∧ Inv kzalloc s' L' out ∧
        s.SameThreads s' ∧ SameHeld none L L' ∧ (L' .pool).length = (L .pool).length + n
  | 0, s, L, hs => ⟨s, L, rfl, hs, ⟨rfl, rfl, rfl, rfl, rfl⟩, .refl _ _, rfl⟩
  | n + 1, s, L, hs => by
      have hnumber : s.num % 2 ^ 16 = s.allocs % 2 ^ 16 := by
        rw [hs.num]
        apply Nat.mod_mod_of_dvd
        decide
      have hs₁ : Stocked kzalloc { s with num := (s.num + 1) % 2 ^ 32 } L out :=
        ⟨hs.lists, hs.all, hs.ticket⟩
      obtain ⟨s₂, L₂, hs₂, hstocked, hallocs, hnum, hsame, hL₂⟩ := hs₁.newTicket hkz hnumber
      have hinv : Inv kzalloc s₂ L₂ out := by
        refine ⟨hstocked, ?_⟩
        rw [hnum, hallocs]
        dsimp only
        rw [hs.num, Nat.mod_add_mod]
      obtain ⟨s', L', hs', hinv', hsame', hheld, hlength⟩ := lotteryGenerateTickets hkz n hinv
      rw [hL₂] at hheld
      refine ⟨s', L', ?_, hinv', ?_, sameHeld_pool.trans hheld, ?_⟩
      · rw [Lottery.lotteryGenerateTickets, hs₂]
        apply hs'
      · exact SameThreads.trans ⟨hsame.live, hsame.links, hsame.rqNum, hsame.prio, hsame.dprio⟩
          hsame'
      · rw [hlength, hL₂, Function.update_self, List.length_cons]
        omega

/-- There is a ticket in the pool when one is taken. -/
theorem fillPool (hs : Inv kzalloc s L out) (hkz : Function.Injective kzalloc) :
  ∃ s' L', s.fillPool kzalloc = some s' ∧ Inv kzalloc s' L' out ∧ s.SameThreads s' ∧
    SameHeld none L L' ∧ L' .pool ≠ []
  := by
  have hempty := (hs.lists.isList _ mem_heads_pool).listEmpty_iff
  rw [Lottery.fillPool]
  split
  · obtain ⟨s', L', hs', hinv, hsame, hheld, hlength⟩ := hs.lotteryGenerateTickets hkz resizeSize
    refine ⟨s', L', hs', hinv, hsame, hheld, ?_⟩
    intro hnil
    rw [hnil, resizeSize, List.length_nil] at hlength
    omega
  · rename_i hne
    exact ⟨s, L, rfl, hs, ⟨rfl, rfl, rfl, rfl, rfl⟩, .refl _ _, fun hnil => hne (hempty.mpr hnil)⟩

/-- A ticket is taken from the pool. -/
theorem lotteryTakeTicket (hs : Inv kzalloc s L out) (hkz : Function.Injective kzalloc) :
  ∃ s' L' e, s.lotteryTakeTicket kzalloc = some (s', e) ∧ Inv kzalloc s' L' (e :: out) ∧
    s.SameThreads s' ∧ SameHeld none L L'
  := by
  obtain ⟨s₁, L₁, hs₁, hinv, hsame, hheld, hne⟩ := hs.fillPool hkz
  obtain ⟨e, l, hl⟩ := List.exists_cons_of_ne_nil hne
  obtain ⟨lists, hlists, hstocked⟩ := hinv.take mem_heads_pool hl
  have hnext : s₁.lists.next .pool = some e := by
    rw [(hinv.lists.isList _ mem_heads_pool).next_head, hl]
    rfl
  refine ⟨{ s₁ with lists }, _, e, ?_, ⟨hstocked, hinv.num⟩, ?_, hheld.trans sameHeld_pool⟩
  · rw [Lottery.lotteryTakeTicket, hs₁]
    simp only [Option.bind_eq_bind, Option.bind_some, hnext, hlists]
  · exact ⟨hsame.live, hsame.links, hsame.rqNum, hsame.prio, hsame.dprio⟩

/-- A thread takes some tickets. -/
theorem takeTickets (hkz : Function.Injective kzalloc) {tp : T} :
    ∀ (n : ℕ) {s : Lottery T} {L : TicketNode T → List (TicketNode T)}, Inv kzalloc s L [] →
      tp ∈ s.live → ∃ s' L', takeTickets kzalloc tp n s = some s' ∧ Inv kzalloc s' L' [] ∧
        s.SameThreads s' ∧ SameHeld (some tp) L L' ∧
        (L' (.tickets tp)).length = (L (.tickets tp)).length + n
  | 0, s, L, hs, _ => ⟨s, L, rfl, hs, ⟨rfl, rfl, rfl, rfl, rfl⟩, .refl _ _, rfl⟩
  | n + 1, s, L, hs, htp => by
      obtain ⟨s₁, L₁, e, hs₁, hinv, hsame, hheld⟩ := hs.lotteryTakeTicket hkz
      have htp₁ : tp ∈ s₁.live := by
        rw [hsame.live]
        apply htp
      obtain ⟨lists, hlists, hstocked⟩ := hinv.give hkz (mem_heads_tickets htp₁)
      have hinv₂ : Inv kzalloc { s₁ with lists } _ [] := ⟨hstocked, hinv.num⟩
      obtain ⟨s', L', hs', hinv', hsame', hheld', hlength⟩ := takeTickets hkz n hinv₂ htp₁
      refine ⟨s', L', ?_, hinv', ?_, hheld.of_none.trans (sameHeld_tickets.trans hheld'), ?_⟩
      · rw [Lottery.takeTickets, hs₁]
        simp only [Option.bind_eq_bind, Option.bind_some, hlists]
        apply hs'
      · exact hsame.trans ⟨hsame'.live, hsame'.links, hsame'.rqNum, hsame'.prio, hsame'.dprio⟩
      · rw [hlength, Function.update_self, List.length_cons, hheld tp nofun]
        omega

/-- The tickets of a thread that is added; what is left is the insertion into the run queue. -/
theorem lotteryAddThread (hs : Inv kzalloc s L []) (hkz : Function.Injective kzalloc) {tp : T}
    (htp : tp ∈ s.live) :
  ∃ s' L', Inv kzalloc s' L' [] ∧ s.SameThreads s' ∧ SameHeld (some tp) L L' ∧
    (L' (.tickets tp) = [] ↔ L (.tickets tp) = [] ∧ ticketCount (s.prio tp) = 0) ∧
    s.lotteryAddThread kzalloc tp = (s.links.rrSharedQueueInsert s.priority () tp).map
      fun links => { s' with links, rqNum := s'.rqNum + 1 }
  := by
  have htickets : ∃ s' L', s.assignTickets kzalloc tp = some s' ∧ Inv kzalloc s' L' [] ∧
      s.SameThreads s' ∧ SameHeld (some tp) L L' ∧
      (L' (.tickets tp) = [] ↔ L (.tickets tp) = [] ∧ ticketCount (s.prio tp) = 0) := by
    have hempty := (hs.lists.isList _ (mem_heads_tickets htp)).listEmpty_iff
    rw [assignTickets]
    split
    · rename_i hnil
      rw [hempty] at hnil
      obtain ⟨s', L', hs', hinv, hsame, hheld, hlength⟩ :=
        hs.takeTickets hkz (ticketCount (s.prio tp)) htp
      refine ⟨s', L', hs', hinv, hsame, hheld, ?_⟩
      rw [hnil, List.length_nil, Nat.zero_add] at hlength
      rw [← List.length_eq_zero_iff, hlength, and_iff_right hnil]
    · rename_i hne
      rw [hempty] at hne
      refine ⟨s, L, rfl, hs, ⟨rfl, rfl, rfl, rfl, rfl⟩, .refl _ _, ?_⟩
      simp [hne]
  obtain ⟨s', L', hs', hinv, hsame, hheld, hnil⟩ := htickets
  have hpriority : s'.priority = s.priority := by
    funext t
    rw [priority, hsame.prio, hsame.dprio, priority]
  refine ⟨s', L', hinv, hsame, hheld, hnil, ?_⟩
  rw [Lottery.lotteryAddThread, hs']
  simp only [Option.bind_eq_bind, Option.bind_some, hpriority, hsame.links]
  rw [Option.map_eq_bind]
  rfl

/-- A ticket of a thread goes back to the pool. -/
theorem lotteryReturnTicket (hs : Inv kzalloc s L []) (hkz : Function.Injective kzalloc) {tp : T}
    (htp : tp ∈ s.live) {l : List (TicketNode T)} (hl : L (.tickets tp) = e :: l) :
  ∃ s' L', s.lotteryReturnTicket e = some s' ∧ Inv kzalloc s' L' [] ∧ s.SameThreads s' ∧
    SameHeld (some tp) L L' ∧ L' (.tickets tp) = l
  := by
  obtain ⟨lists, hlists, hstocked⟩ := hs.take (mem_heads_tickets htp) hl
  obtain ⟨lists', hlists', hstocked'⟩ := hstocked.give hkz (h := .pool) mem_heads_pool
  refine ⟨{ s with lists := lists' }, _, ?_, ⟨hstocked', hs.num⟩, ⟨rfl, rfl, rfl, rfl, rfl⟩,
    sameHeld_tickets.trans sameHeld_pool, ?_⟩
  · rw [Lottery.lotteryReturnTicket]
    simp only [Option.bind_eq_bind, hlists, Option.bind_some, hlists']
  · rw [Function.update_of_ne (by simp), Function.update_self]

/-- The loop gives all the tickets back that are left, and the list of the thread is empty. -/
theorem killLoop (hkz : Function.Injective kzalloc) {tp : T} :
    ∀ (l : List (TicketNode T)) {n : ℕ} {s : Lottery T} {L : TicketNode T → List (TicketNode T)},
      Inv kzalloc s L [] → tp ∈ s.live → L (.tickets tp) = l → l.length ≤ n →
      ∃ s' L', killLoop tp n (Ring.first (.tickets tp) l) s = some s' ∧ Inv kzalloc s' L' [] ∧
        s.SameThreads s' ∧ SameHeld (some tp) L L' ∧ L' (.tickets tp) = []
  | [], n, s, L, hs, _, hl, _ => by
      refine ⟨s, L, ?_, hs, ⟨rfl, rfl, rfl, rfl, rfl⟩, .refl _ _, hl⟩
      cases n <;> rw [Lottery.killLoop, Ring.first_nil, if_pos rfl]
  | e :: l, n + 1, s, L, hs, htp, hl, hn => by
      have hlist := hs.lists.isList _ (mem_heads_tickets htp)
      rw [hl] at hlist
      have hne : e ≠ .tickets tp := by
        rintro rfl
        apply hlist.head_not_mem List.mem_cons_self
      have hnext : s.lists.next e = some (Ring.first (.tickets tp) l) :=
        Ring.IsRing.next_node (a := []) hlist
      obtain ⟨s₁, L₁, hs₁, hinv, hsame, hheld, hl₁⟩ := hs.lotteryReturnTicket hkz htp hl
      have htp₁ : tp ∈ s₁.live := by
        rw [hsame.live]
        apply htp
      obtain ⟨s', L', hs', hinv', hsame', hheld', hnil⟩ :=
        killLoop hkz l hinv htp₁ hl₁ (Nat.le_of_succ_le_succ hn)
      refine ⟨s', L', ?_, hinv', hsame.trans hsame', hheld.trans hheld', hnil⟩
      rw [Lottery.killLoop, Ring.first_cons, if_neg hne]
      simp only [Option.bind_eq_bind, hnext, Option.bind_some, hs₁]
      apply hs'

/-- A thread holds no more tickets than there are. -/
theorem length_le (hs : Inv kzalloc s L out) (hh : h ∈ s.heads) : (L h).length ≤ s.allocs := by
  obtain ⟨rest, hrest⟩ := Shares.exists_perm_append (L := L) hs.lists.heads_nodup hh
  have hperm := hrest (L h)
  rw [Function.update_eq_self] at hperm
  have hlength := (hs.all.symm.trans (hperm.append_left out)).length_eq
  simp only [List.length_map, List.length_range, List.length_append] at hlength
  omega

/-- A thread that is killed gives all its tickets back: its list is empty. -/
theorem lotteryKillThread (hs : Inv kzalloc s L []) (hkz : Function.Injective kzalloc) {tp : T}
    (htp : tp ∈ s.live) :
  ∃ s' L', s.lotteryKillThread tp = some s' ∧ Inv kzalloc s' L' [] ∧ s.SameThreads s' ∧
    SameHeld (some tp) L L' ∧ L' (.tickets tp) = []
  := by
  have hh := mem_heads_tickets htp
  obtain ⟨s', L', hs', hinv, hsame, hheld, hnil⟩ := hs.killLoop hkz _ htp rfl (hs.length_le hh)
  refine ⟨s', L', ?_, hinv, hsame, hheld, hnil⟩
  rw [Lottery.lotteryKillThread, (hs.lists.isList _ hh).next_head]
  apply hs'

end Inv

namespace Stocked

/-- The loop of `lottery_init`. -/
theorem initLoop (hkz : Function.Injective kzalloc) :
    ∀ (n : ℕ) {s : Lottery T} {L : TicketNode T → List (TicketNode T)}, Stocked kzalloc s L out →
      ∃ s' L', initLoop kzalloc n s.allocs s = some s' ∧ Stocked kzalloc s' L' out ∧
        s'.allocs = s.allocs + n ∧ s.SameThreads s' ∧ SameHeld none L L'
  | 0, s, L, hs => ⟨s, L, rfl, hs, rfl, ⟨rfl, rfl, rfl, rfl, rfl⟩, .refl _ _⟩
  | n + 1, s, L, hs => by
      obtain ⟨s₁, L₁, hs₁, hstocked, hallocs, -, hsame, rfl⟩ := hs.newTicket hkz rfl
      obtain ⟨s', L', hs', hstocked', hallocs', hsame', hheld⟩ := initLoop hkz n hstocked
      refine ⟨s', L', ?_, hstocked', ?_, hsame.trans hsame', sameHeld_pool.trans hheld⟩
      · rw [Lottery.initLoop, hs₁, ← hs', hallocs]
        rfl
      · rw [hallocs', hallocs]
        omega

end Stocked

namespace Inv

/-- The first tickets. -/
theorem lotteryInit (hs : Inv kzalloc s L []) (hkz : Function.Injective kzalloc)
    (hallocs : s.allocs = 0) :
  ∃ s' L', s.lotteryInit kzalloc = some s' ∧ Inv kzalloc s' L' [] ∧ s.SameThreads s' ∧
    SameHeld none L L'
  := by
  obtain ⟨s', L', hs', hstocked, hallocs', hsame, hheld⟩ := hs.toStocked.initLoop hkz poolSize
  rw [hallocs] at hs' hallocs'
  refine ⟨{ s' with num := poolSize }, L', ?_, ⟨⟨hstocked.lists, hstocked.all,
    hstocked.ticket⟩, ?_⟩, ⟨hsame.live, hsame.links, hsame.rqNum, hsame.prio, hsame.dprio⟩, hheld⟩
  · rw [Lottery.lotteryInit, hs']
    rfl
  · dsimp only
    rw [hallocs']
    rfl

/-- The record of a thread without tickets is set up. -/
theorem rawThreadInit (hs : Inv kzalloc s L []) {tp : T} (prio : UInt8)
    (hempty : tp ∈ s.live → s.lists.listEmpty (.tickets tp)) :
  ∃ L', Inv kzalloc (s.rawThreadInit tp prio) L' [] ∧ SameHeld (some tp) L L'
  := by
  by_cases htp : tp ∈ s.live
  · have hh := mem_heads_tickets htp
    have hnil := (hs.lists.isList _ hh).listEmpty_iff.mp (hempty htp)
    have hheads : (s.rawThreadInit tp prio).heads = s.heads := by
      simp [heads, Lottery.rawThreadInit, htp]
    refine ⟨L, ⟨⟨?_, ?_, hs.ticket⟩, hs.num⟩, .refl _ _⟩
    · rw [hheads]
      apply hs.lists.listHeadInit_again hh hnil
    · rw [hheads]
      apply hs.all
  · have hheads : (s.rawThreadInit tp prio).heads = .tickets tp :: s.heads := by
      simp [heads, Lottery.rawThreadInit, htp]
    have hnot : .tickets tp ∉ s.heads := by simp [heads, htp]
    refine ⟨Function.update L (.tickets tp) [], ⟨⟨?_, ?_, hs.ticket⟩, hs.num⟩, sameHeld_tickets⟩
    · rw [hheads]
      apply hs.lists.listHeadInit
      rw [List.mem_append, not_or]
      refine ⟨hnot, ?_⟩
      intro hmem
      obtain ⟨n, -, hn⟩ := hs.exists_eq_ticket (List.mem_append_right [] hmem)
      cases hn
    · rw [hheads, List.flatMap_cons, Function.update_self, List.nil_append,
        Shares.flatMap_update_of_notMem hnot]
      apply hs.all

/-- A change of the run queue and of the priorities touches no ticket. -/
theorem congr (hs : Inv kzalloc s L out) (links : Links T Unit) (rqNum : ℕ)
    (prio dprio : T → UInt8) :
  Inv kzalloc { s with links, rqNum, prio, dprio } L out
  := ⟨⟨hs.lists, hs.all, hs.ticket⟩, hs.num⟩

/-- Every operation keeps the invariant, and the tickets of the threads it is not about; a thread
that is killed holds none, and no record but the one it sets up is new. -/
theorem step (hs : Inv kzalloc s L []) (hkz : Function.Injective kzalloc) {op : Op T}
    (hok : s.Ok op) {s' : Lottery T} (hstep : s.step kzalloc op = some s') :
  ∃ L', Inv kzalloc s' L' [] ∧ SameHeld op.thread L L' ∧
    (∀ tp, op = .killThread tp → L' (.tickets tp) = []) ∧
    ∀ t, t ∈ s'.live ↔ t ∈ s.live ∨ ∃ prio, op = .rawThreadInit t prio
  := by
  cases op with
  | init =>
      obtain ⟨s₁, L₁, hs₁, hinv, hsame, hheld⟩ := hs.lotteryInit hkz hok
      obtain rfl := Option.some.inj (hs₁.symm.trans hstep)
      refine ⟨L₁, hinv, hheld, by simp, ?_⟩
      simp [hsame.live]
  | rawThreadInit tp prio =>
      obtain rfl := Option.some.inj hstep
      obtain ⟨L₁, hinv, hheld⟩ := hs.rawThreadInit prio hok
      refine ⟨L₁, hinv, hheld, by simp, ?_⟩
      intro t
      simp only [Lottery.rawThreadInit, Op.rawThreadInit.injEq, exists_and_left, exists_eq', and_true]
      split
      · rename_i htp
        rw [iff_self_or]
        rintro rfl
        exact htp
      · rw [List.mem_cons, or_comm, eq_comm]
  | addThread tp =>
      obtain ⟨s₁, L₁, hinv, hsame, hheld, -, hadd⟩ := hs.lotteryAddThread hkz hok
      rw [Lottery.step, hadd] at hstep
      obtain ⟨links, -, rfl⟩ := Option.map_eq_some_iff.mp hstep
      refine ⟨L₁, hinv.congr links _ _ _, hheld, by simp, ?_⟩
      simp [hsame.live]
  | removeThread tp =>
      obtain ⟨⟨s₁, rc⟩, hremove, rfl⟩ := Option.map_eq_some_iff.mp hstep
      obtain ⟨⟨links, rc'⟩, -, hs₁⟩ := Option.map_eq_some_iff.mp hremove
      obtain ⟨rfl, -⟩ := Prod.mk.inj hs₁
      exact ⟨L, hs.congr links _ _ _, .refl _ _, by simp, by simp⟩
  | killThread tp =>
      obtain ⟨s₁, L₁, hs₁, hinv, hsame, hheld, hnil⟩ := hs.lotteryKillThread hkz hok
      obtain rfl := Option.some.inj (hs₁.symm.trans hstep)
      refine ⟨L₁, hinv, hheld, ?_, ?_⟩
      · rintro _ ⟨⟩
        exact hnil
      · simp [hsame.live]
  | setPrio tp prio dprio =>
      obtain rfl := Option.some.inj hstep
      exact ⟨L, hs.congr _ _ _ _, .refl _ _, by simp, by simp⟩

/-- An operation that adds no thread twice to the run queue goes through. -/
theorem exists_step (hs : Inv kzalloc s L []) (hkz : Function.Injective kzalloc) {op : Op T}
    (hok : s.Ok op) {queue : Unit → List T} (hqueue : Linked s.links queue)
    (honce : s.Once op) :
  ∃ s', s.step kzalloc op = some s' ∧ ∃ queue', Linked s'.links queue'
  := by
  cases op with
  | init =>
      obtain ⟨s₁, L₁, hs₁, -, hsame, -⟩ := hs.lotteryInit hkz hok
      refine ⟨s₁, hs₁, queue, ?_⟩
      rw [hsame.links]
      apply hqueue
  | rawThreadInit tp prio =>
      exact ⟨_, rfl, queue, hqueue.clear (hqueue.notMem honce)⟩
  | addThread tp =>
      obtain ⟨s₁, L₁, -, -, -, -, hadd⟩ := hs.lotteryAddThread hkz hok
      obtain ⟨links, hlinks, hlinked⟩ :=
        hqueue.insert (fun thread => s.priority thread ≤ s.priority tp) () (hqueue.notMem honce)
      refine ⟨{ s₁ with links, rqNum := s₁.rqNum + 1 }, ?_, _, hlinked⟩
      rw [Lottery.step, hadd, Links.rrSharedQueueInsert, hlinks]
      rfl
  | removeThread tp =>
      obtain ⟨links, rc, hlinks, hlinked⟩ : ∃ links rc,
          s.links.rrSharedQueueRemove () tp = some (links, rc) ∧ ∃ queue', Linked links queue' := by
        obtain ⟨links, hlinks, hlinked⟩ := hqueue.remove () tp
        exact ⟨links, _, hlinks, _, hlinked⟩
      refine ⟨{ s with links, rqNum := if rc = 0 then s.rqNum - 1 else s.rqNum }, ?_, hlinked⟩
      rw [Lottery.step, lotteryRemoveThread, hlinks]
      rfl
  | killThread tp =>
      obtain ⟨s₁, L₁, hs₁, -, hsame, -, -⟩ := hs.lotteryKillThread hkz hok
      refine ⟨s₁, hs₁, queue, ?_⟩
      rw [hsame.links]
      apply hqueue
  | setPrio tp prio dprio => exact ⟨_, rfl, queue, hqueue⟩

end Inv

/-! ### The threads that are alive -/

/-- The invariant of a run: the threads that are alive have records, and the other records hold no
tickets. -/
structure Alive (s : Lottery T) (L : TicketNode T → List (TicketNode T)) (threads : List T) :
    Prop where
  nodup : threads.Nodup
  subset : threads ⊆ s.live
  nil : ∀ t ∈ s.live, t ∉ threads → L (.tickets t) = []

/-- Every operation keeps the threads that are alive apart from those that hold nothing. -/
theorem Alive.step {threads : List T} (h : s.Alive L threads) (hs : Inv kzalloc s L [])
    (hkz : Function.Injective kzalloc) {op : Op T} (hok : s.Ok op) {s' : Lottery T}
    (hstep : s.step kzalloc op = some s') :
  ∃ L', Inv kzalloc s' L' [] ∧ s'.Alive L' (op.alive threads)
  := by
  obtain ⟨L', hinv, hheld, hkill, hlive⟩ := hs.step hkz hok hstep
  refine ⟨L', hinv, ?_, ?_, ?_⟩
  · cases op with
    | rawThreadInit tp _ => exact h.nodup.insert
    | addThread tp => exact h.nodup.insert
    | killThread tp => exact h.nodup.erase tp
    | init => exact h.nodup
    | removeThread _ => exact h.nodup
    | setPrio _ _ _ => exact h.nodup
  · intro t ht
    rw [hlive]
    cases op with
    | rawThreadInit tp prio =>
        rcases List.mem_insert_iff.mp ht with rfl | ht
        · exact .inr ⟨prio, rfl⟩
        · exact .inl (h.subset ht)
    | addThread tp =>
        rcases List.mem_insert_iff.mp ht with rfl | ht
        · exact .inl hok
        · exact .inl (h.subset ht)
    | killThread tp => exact .inl (h.subset (List.mem_of_mem_erase ht))
    | init => exact .inl (h.subset ht)
    | removeThread _ => exact .inl (h.subset ht)
    | setPrio _ _ _ => exact .inl (h.subset ht)
  · intro t ht hnot
    rw [hlive] at ht
    cases op with
    | rawThreadInit tp prio =>
        rw [Op.alive, List.mem_insert_iff, not_or] at hnot
        rw [hheld t (by simpa [Op.thread, eq_comm] using hnot.1)]
        rcases ht with ht | ⟨_, ⟨⟩⟩
        · exact h.nil t ht hnot.2
        · exact absurd rfl hnot.1
    | addThread tp =>
        rw [Op.alive, List.mem_insert_iff, not_or] at hnot
        rw [hheld t (by simpa [Op.thread, eq_comm] using hnot.1)]
        rcases ht with ht | ⟨_, ⟨⟩⟩
        exact h.nil t ht hnot.2
    | killThread tp =>
        rcases ht with ht | ⟨_, ⟨⟩⟩
        by_cases htp : t = tp
        · rw [htp]
          exact hkill tp rfl
        · rw [hheld t (by simpa [Op.thread, eq_comm] using htp)]
          apply h.nil t ht
          rwa [Op.alive, h.nodup.mem_erase_iff, and_iff_right htp] at hnot
    | init | removeThread _ | setPrio _ _ _ =>
        rcases ht with ht | ⟨_, ⟨⟩⟩
        rw [hheld t (by simp [Op.thread])]
        exact h.nil t ht hnot

/-- While the field of a ticket holds its number, the numbers of the tickets are the ones below
`num`. -/
theorem Alive.conserved {threads : List T} (h : s.Alive L threads) (hs : Inv kzalloc s L [])
    (hfits : s.allocs ≤ 2 ^ 16) :
  s.Conserved threads ((L .pool).map TicketNode.addr)
    fun t => (L (.tickets t)).map TicketNode.addr
  := by
  have haddr {h : TicketNode T} (hh : h ∈ s.heads) :
      ((L h).map TicketNode.addr).map TicketNode.ticket = L h := by
    rw [List.map_map]
    conv_rhs => rw [← List.map_id (L h)]
    apply List.map_congr_left
    intro e he
    obtain ⟨n, -, rfl⟩ := hs.exists_eq_ticket (e := e)
      (List.mem_append_right [] (List.mem_flatMap.mpr ⟨h, hh, he⟩))
    rfl
  have hticket (n : ℕ) (hn : n < s.allocs) : s.ticket (kzalloc n) = n := by
    rw [hs.ticket n hn]
    apply Nat.mod_eq_of_lt
    omega
  have hnum : s.num = s.allocs := by
    rw [hs.num]
    apply Nat.mod_eq_of_lt
    omega
  have hlive : s.live.Nodup := by
    have hheads := hs.lists.heads_nodup
    rw [heads, List.nodup_append'] at hheads
    exact hheads.1.of_map
  have halive : (s.live.flatMap fun t => (L (.tickets t)).map TicketNode.addr).Perm
      (threads.flatMap fun t => (L (.tickets t)).map TicketNode.addr) := by
    apply Shares.perm_of_subset hlive h.nodup h.subset
    intro t ht hnot
    rw [h.nil t ht hnot, List.map_nil]
  -- The addresses of all tickets, in the order of the lists.
  have hall : (s.live.flatMap (fun t => (L (.tickets t)).map TicketNode.addr)
      ++ (L .pool).map TicketNode.addr).Perm ((List.range s.allocs).map kzalloc) := by
    have hmap := hs.all.map TicketNode.addr
    simp only [heads, List.nil_append, List.flatMap_append, List.flatMap_map, List.map_append,
      List.map_flatMap, List.flatMap_singleton, List.map_map] at hmap
    apply hmap
  have hnumbers : (((L .pool).map TicketNode.addr
      ++ threads.flatMap (fun t => (L (.tickets t)).map TicketNode.addr)).map s.ticket).Perm
        (List.range s.num) := by
    apply (((halive.symm.append_left _).trans (List.perm_append_comm.trans hall)).map
      s.ticket).trans
    rw [List.map_map, hnum]
    apply List.Perm.of_eq
    conv_rhs => rw [← List.map_id (List.range s.allocs)]
    apply List.map_congr_left
    intro n hn
    apply hticket n (List.mem_range.mp hn)
  have hnodup := hnumbers.nodup_iff.mpr List.nodup_range
  refine ⟨?_, ?_, hnumbers, ?_⟩
  · rw [haddr mem_heads_pool]
    apply hs.lists.isList _ mem_heads_pool
  · intro t ht
    rw [haddr (mem_heads_tickets (h.subset ht))]
    apply hs.lists.isList _ (mem_heads_tickets (h.subset ht))
  · intro t ht t' ht' x hx x' hx' heq
    rw [List.map_append, List.nodup_append'] at hnodup
    have hheld := hnodup.2.1
    rw [List.map_flatMap] at hheld
    apply Shares.holder_unique hheld ht ht' (List.mem_map_of_mem hx)
    rw [heq]
    apply List.mem_map_of_mem hx'

/-! ### The conservation of tickets -/

/-- In every state that a sequence of operations reaches, the tickets of the pool and those of the
threads that are alive have the numbers below `num`, each once.  Operations that add no thread
twice to the run queue go through. -/
theorem conserved_of_run (hkz : Function.Injective kzalloc) {ops : List (Op T)}
    (hok : Run.Meets (Lottery.step kzalloc) Ok boot ops) :
  (∀ s, Run.exec (Lottery.step kzalloc) boot ops = some s → s.allocs ≤ 2 ^ 16 →
      ∃ free held, s.Conserved (alive ops) free held) ∧
    (Run.Meets (Lottery.step kzalloc) Once boot ops →
      ∃ s, Run.exec (Lottery.step kzalloc) (boot : Lottery T) ops = some s)
  := by
  constructor
  · intro s hs hfits
    obtain ⟨L, hinv, halive⟩ := Run.exec_foldl Op.alive
      (fun s threads => ∃ L, Inv kzalloc s L [] ∧ s.Alive L threads)
      (fun s threads op s' ⟨L, hs, halive⟩ hop hstep => halive.step hs hkz hop hstep) ops
      ⟨_, inv_boot, List.nodup_nil, List.nil_subset _, fun _ _ _ => rfl⟩ hs hok
    exact ⟨_, _, halive.conserved hinv hfits⟩
  · intro honce
    have hboot : Linked (boot : Lottery T).links fun _ => [] := linked_nil fun _ => rfl
    obtain ⟨s, hs, -⟩ := Run.exec_of_meets
      (fun s : Lottery T => (∃ L, Inv kzalloc s L []) ∧ ∃ queue, Linked s.links queue)
      (fun s op hs hop => by
        obtain ⟨⟨L, hinv⟩, queue, hqueue⟩ := hs
        obtain ⟨s', hs', hlinked⟩ := hinv.exists_step hkz hop.1 hqueue hop.2
        exact ⟨s', hs', (hinv.step hkz hop.1 hs').imp fun _ h => h.1, hlinked⟩)
      ops ⟨⟨_, inv_boot⟩, _, hboot⟩ (hok.and honce)
    exact ⟨s, hs⟩

/-- Two threads are set up and added, which empties the pool, a third one makes it grow, and the
first one is killed. -/
theorem conserved_of_run_three :
  ∃ s, Run.exec (Lottery.step fun n => 4 * n + 100) (boot : Lottery (Fin 3))
      [.init, .rawThreadInit 0 0, .addThread 0, .rawThreadInit 1 0, .addThread 1,
        .rawThreadInit 2 120, .addThread 2, .removeThread 0, .killThread 0] = some s ∧
    s.num = 25 ∧ ∃ free held, s.Conserved [2, 1] free held
  := by
  have hkz : Function.Injective fun n => 4 * n + 100 := by
    intro n m hnm
    dsimp only at hnm
    omega
  obtain ⟨s, hs, htest⟩ := Run.exists_of_any (Lottery.step fun n => 4 * n + 100)
    (boot : Lottery (Fin 3))
    [.init, .rawThreadInit 0 0, .addThread 0, .rawThreadInit 1 0, .addThread 1,
      .rawThreadInit 2 120, .addThread 2, .removeThread 0, .killThread 0]
    (fun s => s.num = 25 ∧ s.allocs ≤ 2 ^ 16) (by decide +kernel)
  obtain ⟨hnum, hfits⟩ := of_decide_eq_true htest
  refine ⟨s, hs, hnum, ?_⟩
  apply (conserved_of_run (T := Fin 3) hkz _).1 s hs hfits
  decide +kernel

end Lottery

end Etaos
