import Etaos.Library.Run
import Etaos.Library.XorChain
import Etaos.Sched.Queue

/-!
# Lists of one link

The lists of `xorlist.c`, whose nodes have a single pointer, the exclusive or of the addresses of
the two neighbours.  An address is a bit vector, and `NULL` is zero; the memory gives the field
`ptr` of the node at every address.
-/

namespace Etaos.Lib

variable {w : ℕ}

/-- The field `ptr` of the nodes in memory. -/
abbrev XorHeads (w : ℕ) := BitVec w → BitVec w

namespace XorHeads

/-- The function `xlist_create_pointer`. -/
def xlistCreatePointer (a b : BitVec w) : BitVec w :=
  a ^^^ b

/-- The function `xlist_next`. -/
def xlistNext (k : XorHeads w) (prev cur : BitVec w) : BitVec w :=
  if cur = 0 then
    0
  else
    xlistCreatePointer prev (k cur)

/-- The function `xlist_prev`. -/
def xlistPrev (k : XorHeads w) (this next : BitVec w) : BitVec w :=
  if this ≠ 0 then
    xlistCreatePointer (k this) next
  else
    0

/-- The function `xlist_add`, with its error code. -/
def xlistAdd (k : XorHeads w) (prev curr node : BitVec w) : XorHeads w × Int :=
  let next := k.xlistNext prev curr
  let nextNext := if next ≠ 0 then k next ^^^ curr else curr
  if next = 0 then
    let k := Function.update k curr (xlistCreatePointer prev node)
    (Function.update k node curr, -EOK)
  else
    let k := Function.update k curr (xlistCreatePointer prev node)
    let k := Function.update k node (xlistCreatePointer curr next)
    (Function.update k next
      (if nextNext ≠ 0 then xlistCreatePointer node nextNext else xlistCreatePointer node 0), -EOK)

/-- The function `xlist_remove`, with its error code. -/
def xlistRemove (k : XorHeads w) (prev node : BitVec w) : XorHeads w × Int :=
  if node = 0 then
    (k, -EINVAL)
  else
    let next := k.xlistNext prev node
    let prevPrev := if prev ≠ 0 then k.xlistPrev prev node else 0
    let nextNext := if next ≠ 0 then xlistCreatePointer (k next) node else 0
    let k := if prev ≠ 0 then Function.update k prev (xlistCreatePointer prevPrev next) else k
    let k := if next ≠ 0 then Function.update k next (xlistCreatePointer nextNext prev) else k
    (Function.update k node 0, -EINVAL)

/-- The nodes that `xlist_for_each` meets from the node `c`, with `p` in front of it; it is
`none` when the walk does not end within a number of nodes. -/
def xlistForEach (k : XorHeads w) : ℕ → BitVec w → BitVec w → Option (List (BitVec w))
  | 0, _, c => if c = 0 then some [] else none
  | n + 1, p, c =>
      if c = 0 then
        some []
      else
        (xlistForEach k n c (k.xlistNext p c)).map fun l => c :: l

/-- The nodes that a walk with `xlist_prev` meets from the node `c`, with `q` behind it. -/
def xlistForEachPrev (k : XorHeads w) : ℕ → BitVec w → BitVec w → Option (List (BitVec w))
  | 0, c, _ => if c = 0 then some [] else none
  | n + 1, c, q =>
      if c = 0 then
        some []
      else
        (xlistForEachPrev k n (k.xlistPrev c q) c).map fun l => c :: l

/-- The macro `xlist_for_each_safe` from the node `c`, with `p` in front of it and `s` as the node
saved, and with the nodes it visits; `body` is what the loop does at a node.  It is `none` when
the loop does not end within a number of nodes. -/
def xlistForEachSafe (body : XorHeads w → BitVec w → BitVec w → XorHeads w) :
    ℕ → XorHeads w → BitVec w → BitVec w → BitVec w → Option (XorHeads w × List (BitVec w))
  | 0, k, _, c, _ => if c = 0 then some (k, []) else none
  | n + 1, k, p, c, s =>
      if c = 0 then
        some (k, [])
      else
        let k := body k p c
        (xlistForEachSafe body n k c s (k.xlistNext c s)).map fun (k, l) => (k, c :: l)

/-- The body of a loop that removes the nodes of a set. -/
def removeIn (S : Finset (BitVec w)) (k : XorHeads w) (p c : BitVec w) : XorHeads w :=
  if c ∈ S then (k.xlistRemove p c).1 else k

/-! ### The list behind an operation -/

open XorChain

variable {k : XorHeads w} {a b l : List (BitVec w)} {c x : BitVec w}

theorem xlistNext_of_ne (k : XorHeads w) (p : BitVec w) (hc : c ≠ 0) :
  k.xlistNext p c = p ^^^ k c
  := by
  rw [xlistNext, if_neg hc, xlistCreatePointer]

theorem xlistPrev_of_ne (k : XorHeads w) (q : BitVec w) (hc : c ≠ 0) :
  k.xlistPrev c q = k c ^^^ q
  := by
  rw [xlistPrev, if_pos hc, xlistCreatePointer]

/-- The address of a node is not `NULL`. -/
theorem ne_zero_of_chain (h : Chain k l) (hc : c ∈ l) : c ≠ 0 := by
  rintro rfl
  apply h.ne_zero hc

/-- The node behind a node of a list. -/
theorem xlistNext_eq (h : Chain k (a ++ c :: b)) :
  k.xlistNext (last 0 a) c = first b 0
  := by
  have hc : c ≠ 0 := ne_zero_of_chain h (by simp)
  rw [xlistNext_of_ne k _ hc, (segment_middle.mp h.segment).2.1, xor_cancel]

/-- The node in front of a node of a list. -/
theorem xlistPrev_eq (h : Chain k (a ++ c :: b)) :
  k.xlistPrev c (first b 0) = last 0 a
  := by
  have hc : c ≠ 0 := ne_zero_of_chain h (by simp)
  rw [xlistPrev_of_ne k _ hc, (segment_middle.mp h.segment).2.1, BitVec.xor_assoc,
    BitVec.xor_self, BitVec.xor_zero]

/-- The link of the node behind `c` gives the node after that. -/
theorem link_xor {n : BitVec w} (h : Chain k (a ++ c :: n :: b)) : k n ^^^ c = first b 0 := by
  rw [(segment_middle.mp h.segment).2.2.1, BitVec.xor_comm c, BitVec.xor_assoc,
    BitVec.xor_self, BitVec.xor_zero]

/-- The links behind an addition to the last node. -/
theorem xlistAdd_nil (h : Chain k (a ++ [c])) :
  (k.xlistAdd (last 0 a) c x).1 = Function.update (Function.update k c (last 0 a ^^^ x)) x c
  := by
  rw [xlistAdd]
  simp only [xlistNext_eq h]
  rfl

/-- The links behind an addition to another node. -/
theorem xlistAdd_cons {n : BitVec w} (h : Chain k (a ++ c :: n :: b)) :
  (k.xlistAdd (last 0 a) c x).1
    = Function.update (Function.update (Function.update k c (last 0 a ^^^ x)) x (c ^^^ n)) n
        (x ^^^ first b 0)
  := by
  have hn : n ≠ 0 := ne_zero_of_chain h (by simp)
  rw [xlistAdd]
  simp only [xlistNext_eq h, first_cons]
  rw [if_neg hn, if_pos hn, link_xor h]
  simp only [xlistCreatePointer]
  split
  · rfl
  · rename_i hlast
    rw [not_not.mp hlast]

/-- The list with a node added behind `c` has that node and those of the list. -/
theorem perm_add (a b : List (BitVec w)) (c x : BitVec w) :
  (a ++ c :: x :: b).Perm (x :: (a ++ c :: b))
  := by
  have hperm : ((a ++ [c]) ++ x :: b).Perm (x :: ((a ++ [c]) ++ b)) := List.perm_middle
  simpa using hperm

/-- A node is added behind the node `c`. -/
theorem xlistAdd_chain (h : Chain k (a ++ c :: b)) (hx : x ∉ a ++ c :: b) (hzero : x ≠ 0) :
  Chain (k.xlistAdd (last 0 a) c x).1 (a ++ c :: x :: b)
  := by
  have hxnodup : (a ++ c :: x :: b).Nodup :=
    (perm_add a b c x).nodup_iff.mpr (List.nodup_cons.mpr ⟨hx, h.nodup⟩)
  constructor
  case nodup => apply hxnodup
  case ne_zero =>
    rw [(perm_add a b c x).mem_iff, List.mem_cons, not_or]
    exact ⟨hzero.symm, h.ne_zero⟩
  case segment =>
    obtain ⟨ha, -, hb⟩ := segment_middle.mp h.segment
    have hca : c ∉ a := fun hin => (List.nodup_append.mp h.nodup).2.2 c hin c (by simp) rfl
    simp only [List.mem_append, List.mem_cons, not_or] at hx
    obtain ⟨hxa, hxc, hxb⟩ := hx
    rw [segment_middle, first_cons, Segment]
    cases b with
    | nil =>
        rw [xlistAdd_nil h, Function.update_self, Function.update_of_ne (Ne.symm hxc),
          Function.update_self, first_nil]
        exact ⟨segment_update hxa (segment_update hca ha), rfl, BitVec.xor_zero.symm, trivial⟩
    | cons n b =>
        have hna : n ∉ a := fun hin => (List.nodup_append.mp h.nodup).2.2 n hin n (by simp) rfl
        have hcb := (List.nodup_cons.mp (List.nodup_append.mp h.nodup).2.1)
        rw [List.mem_cons, not_or] at hcb hxb
        have hnb := (List.nodup_cons.mp hcb.2).1
        rw [xlistAdd_cons h, Function.update_of_ne hcb.1.1, Function.update_of_ne (Ne.symm hxc),
          Function.update_self, Function.update_of_ne hxb.1, Function.update_self, first_cons]
        refine ⟨?_, rfl, rfl, ?_⟩
        · apply segment_update hna (segment_update hxa (segment_update hca ha))
        · apply segment_relink_first hnb
          have hmem : x ∉ n :: b := by simpa using hxb
          have hmemc : c ∉ n :: b := by simpa using hcb.1
          apply segment_update hmem (segment_update hmemc hb)

/-- Only the node added and its neighbours are written to. -/
theorem xlistAdd_of_ne (h : Chain k (a ++ c :: b)) {y : BitVec w} (hx : y ≠ x) (hc : y ≠ c)
    (hb : y ≠ first b 0) :
  (k.xlistAdd (last 0 a) c x).1 y = k y
  := by
  cases b with
  | nil => rw [xlistAdd_nil h, Function.update_of_ne hx, Function.update_of_ne hc]
  | cons n b =>
      rw [first_cons] at hb
      rw [xlistAdd_cons h, Function.update_of_ne hb, Function.update_of_ne hx,
        Function.update_of_ne hc]

/-- The link of the node in front of a removed node. -/
def unlinkPrev (k : XorHeads w) (a b : List (BitVec w)) : XorHeads w :=
  match a.getLast? with
  | none => k
  | some p => Function.update k p (last 0 a.dropLast ^^^ first b 0)

/-- The link of the node behind a removed node. -/
def unlinkNext (k : XorHeads w) (a : List (BitVec w)) : List (BitVec w) → XorHeads w
  | [] => k
  | n :: b => Function.update k n (last 0 a ^^^ first b 0)

/-- The links behind a removal. -/
theorem xlistRemove_eq (h : Chain k (a ++ c :: b)) :
  (k.xlistRemove (last 0 a) c).1
    = Function.update (unlinkNext (unlinkPrev k a b) a b) c 0
  := by
  have hc : c ≠ 0 := ne_zero_of_chain h (by simp)
  have hprev : unlinkPrev k a b = if last 0 a ≠ 0 then Function.update k (last 0 a)
      (xlistCreatePointer (if last 0 a ≠ 0 then k.xlistPrev (last 0 a) c else 0) (first b 0))
      else k := by
    rcases List.eq_nil_or_concat a with rfl | ⟨a, p, rfl⟩
    · rfl
    · rw [List.concat_eq_append] at h ⊢
      have hp : p ≠ 0 := ne_zero_of_chain h (by simp)
      have h' : Chain k (a ++ p :: c :: b) := by simpa using h
      have hprev := xlistPrev_eq h'
      rw [first_cons] at hprev
      rw [last_concat, if_pos hp, if_pos hp, hprev]
      simp [unlinkPrev, xlistCreatePointer]
  have hnext : unlinkNext (unlinkPrev k a b) a b = if first b 0 ≠ 0 then
      Function.update (unlinkPrev k a b) (first b 0) (xlistCreatePointer
        (if first b 0 ≠ 0 then xlistCreatePointer (k (first b 0)) c else 0) (last 0 a))
      else unlinkPrev k a b := by
    cases b with
    | nil => rfl
    | cons n b =>
        have hn : n ≠ 0 := ne_zero_of_chain h (by simp)
        rw [first_cons, if_pos hn, if_pos hn, xlistCreatePointer, xlistCreatePointer, link_xor h,
          BitVec.xor_comm]
        rfl
  rw [xlistRemove, if_neg hc]
  simp only [xlistNext_eq h]
  rw [← hprev, ← hnext]

/-- The removal of a node joins the segments around it. -/
theorem segment_unlink (ha : Segment k 0 a c) (hb : Segment k c b 0) (hnodup : (a ++ b).Nodup) :
  Segment (unlinkNext (unlinkPrev k a b) a b) 0 (a ++ b) 0
  := by
  have hprev : Segment (unlinkPrev k a b) 0 a (first b 0) := by
    rcases List.eq_nil_or_concat a with rfl | ⟨a, p, rfl⟩
    · trivial
    · rw [List.concat_eq_append] at ha hnodup ⊢
      have hp : p ∉ a := by
        intro hin
        have hap := (List.nodup_append.mp hnodup).1
        apply (List.nodup_append.mp hap).2.2 p hin p (List.mem_singleton_self p) rfl
      simpa [unlinkPrev] using segment_relink_last hp ha
  have hprevb : Segment (unlinkPrev k a b) c b 0 := by
    cases hlast : a.getLast? with
    | none => simpa [unlinkPrev, hlast] using hb
    | some p =>
        have hpa := List.mem_of_getLast? hlast
        have hpb : p ∉ b := fun hin => (List.nodup_append.mp hnodup).2.2 p hpa p hin rfl
        simpa [unlinkPrev, hlast] using segment_update hpb hb
  rw [segment_append]
  cases b with
  | nil => exact ⟨hprev, trivial⟩
  | cons n b =>
      have hna : n ∉ a := fun hin => (List.nodup_append.mp hnodup).2.2 n hin n (by simp) rfl
      have hnb := (List.nodup_cons.mp (List.nodup_append.mp hnodup).2.1).1
      exact ⟨segment_update hna hprev, segment_relink_first hnb hprevb⟩

/-- The node `c` is removed. -/
theorem xlistRemove_chain (h : Chain k (a ++ c :: b)) :
  Chain (k.xlistRemove (last 0 a) c).1 (a ++ b)
  := by
  have hsub : (a ++ b).Sublist (a ++ c :: b) := (List.sublist_cons_self c b).append_left a
  obtain ⟨ha, -, hb⟩ := segment_middle.mp h.segment
  have hnodup := List.nodup_cons.mp (List.nodup_middle.mp h.nodup)
  constructor
  case nodup => apply hnodup.2
  case ne_zero => exact fun hin => h.ne_zero (hsub.mem hin)
  case segment =>
    rw [xlistRemove_eq h]
    apply segment_update hnodup.1 (segment_unlink ha hb hnodup.2)

/-- Only the node removed and its neighbours are written to. -/
theorem xlistRemove_of_ne (h : Chain k (a ++ c :: b)) {y : BitVec w} (hc : y ≠ c)
    (ha : y ≠ last 0 a) (hb : y ≠ first b 0) :
  (k.xlistRemove (last 0 a) c).1 y = k y
  := by
  have hprev : unlinkPrev k a b y = k y := by
    cases hlast : a.getLast? with
    | none => simp [unlinkPrev, hlast]
    | some p =>
        rw [last, hlast, Option.getD_some] at ha
        simp [unlinkPrev, hlast, ha]
  rw [xlistRemove_eq h, Function.update_of_ne hc, ← hprev]
  cases b with
  | nil => rfl
  | cons n b => apply Function.update_of_ne hb

/-- A walk with `xlist_next` meets the nodes of the list in order. -/
theorem xlistForEach_eq :
    ∀ {p : BitVec w} {l : List (BitVec w)} (n : ℕ), Segment k p l 0 → 0 ∉ l → l.length ≤ n →
      k.xlistForEach n p (first l 0) = some l
  | p, [], 0, _, _, _ => rfl
  | p, [], n + 1, _, _, _ => rfl
  | p, a :: l, 0, _, _, hn => by simp at hn
  | p, a :: l, n + 1, h, hzero, hn => by
      rw [List.mem_cons, not_or] at hzero
      have ha : a ≠ 0 := Ne.symm hzero.1
      rw [first_cons, xlistForEach, if_neg ha]
      rw [xlistNext_of_ne k p ha, h.1, xor_cancel,
        xlistForEach_eq n h.2 hzero.2 (Nat.le_of_succ_le_succ hn)]
      rfl

/-- A walk with `xlist_prev` meets the nodes of the list in the opposite order. -/
theorem xlistForEachPrev_eq :
    ∀ {q : BitVec w} {l : List (BitVec w)} (n : ℕ), Segment k q l 0 → 0 ∉ l → l.length ≤ n →
      k.xlistForEachPrev n (first l 0) q = some l
  | q, [], 0, _, _, _ => rfl
  | q, [], n + 1, _, _, _ => rfl
  | q, a :: l, 0, _, _, hn => by simp at hn
  | q, a :: l, n + 1, h, hzero, hn => by
      rw [List.mem_cons, not_or] at hzero
      have ha : a ≠ 0 := Ne.symm hzero.1
      rw [first_cons, xlistForEachPrev, if_neg ha]
      rw [xlistPrev_of_ne k q ha, h.1, BitVec.xor_comm q, BitVec.xor_assoc, BitVec.xor_self,
        BitVec.xor_zero, xlistForEachPrev_eq n h.2 hzero.2 (Nat.le_of_succ_le_succ hn)]
      rfl

/-! ### Positions -/

/-- The address at the position before `i`, or `NULL`. -/
def before (l : List (BitVec w)) : ℕ → BitVec w
  | 0 => 0
  | i + 1 => l.getD i 0

theorem before_eq {i : ℕ} (hi : i ≤ l.length) : before l i = last 0 (l.take i) := by
  cases i with
  | zero => rfl
  | succ i =>
      rw [before, List.take_add_one, List.getD_eq_getElem?_getD, List.getElem?_eq_getElem hi,
        Option.toList_some, last_concat, Option.getD_some]

/-- A list is cut in three at a position. -/
theorem eq_take_cons_drop {i : ℕ} (hi : i < l.length) :
  l = l.take i ++ l[i] :: l.drop (i + 1)
  := by
  rw [← List.drop_eq_getElem_cons hi, List.take_append_drop]

/-- The list with an element added behind a position. -/
theorem insertIdx_succ_eq :
    ∀ {l : List (BitVec w)} {i : ℕ} (hi : i < l.length),
      l.insertIdx (i + 1) x = l.take i ++ l[i] :: x :: l.drop (i + 1)
  | [], i, hi => by simp at hi
  | a :: l, 0, hi => by simp
  | a :: l, i + 1, hi => by
      rw [List.insertIdx_succ_cons, insertIdx_succ_eq (Nat.lt_of_succ_lt_succ hi)]
      rfl

theorem first_drop (i : ℕ) : first (l.drop i) 0 = l.getD i 0 := by
  rw [first, List.head?_drop, List.getD_eq_getElem?_getD]

/-- The memory represents a list: its links are those of the list, the walks in both directions
meet its nodes, and the operations at every position represent the changed list and write to the
node at that position and its neighbours only. -/
structure Represents (k : XorHeads w) (l : List (BitVec w)) : Prop where
  chain : Chain k l
  forEach : ∀ n, l.length ≤ n → k.xlistForEach n 0 (l.getD 0 0) = some l
  forEachPrev : ∀ n, l.length ≤ n → k.xlistForEachPrev n (before l l.length) 0 = some l.reverse
  add : ∀ i (hi : i < l.length) x, x ≠ 0 → x ∉ l →
    Chain (k.xlistAdd (before l i) l[i] x).1 (l.insertIdx (i + 1) x) ∧
      ∀ y, y ≠ x → y ≠ l[i] → y ≠ l.getD (i + 1) 0 → (k.xlistAdd (before l i) l[i] x).1 y = k y
  remove : ∀ i (hi : i < l.length),
    Chain (k.xlistRemove (before l i) l[i]).1 (l.eraseIdx i) ∧
      ∀ y, y ≠ l[i] → y ≠ before l i → y ≠ l.getD (i + 1) 0 →
        (k.xlistRemove (before l i) l[i]).1 y = k y

theorem represents_of_chain (h : Chain k l) : Represents k l := by
  constructor
  case chain => apply h
  case forEach =>
    intro n hn
    rw [← first_drop, List.drop_zero]
    apply xlistForEach_eq n h.segment h.ne_zero hn
  case forEachPrev =>
    intro n hn
    rw [before_eq le_rfl, List.take_length, ← first_reverse]
    apply xlistForEachPrev_eq n h.segment.reverse
    · simpa using h.ne_zero
    · simpa using hn
  case add =>
    intro i hi x hzero hx
    have hl := eq_take_cons_drop hi
    rw [hl] at h hx
    rw [before_eq hi.le, ← first_drop]
    rw [insertIdx_succ_eq hi]
    use xlistAdd_chain h hx hzero
    intro y hyx hyc hyb
    apply xlistAdd_of_ne h hyx hyc hyb
  case remove =>
    intro i hi
    have hl := eq_take_cons_drop hi
    rw [hl] at h
    rw [before_eq hi.le, ← first_drop, List.eraseIdx_eq_take_drop_succ]
    use xlistRemove_chain h
    intro y hyc hya hyb
    apply xlistRemove_of_ne h hyc hya hyb

/-! ### Removals during a walk -/

/-- The loop of `xlist_for_each_safe` that removes the nodes of `S`, at the nodes of `b` behind
those of `a`. -/
def safeFrom (k : XorHeads w) (S : Finset (BitVec w)) (n : ℕ) (a b : List (BitVec w)) :
    Option (XorHeads w × List (BitVec w)) :=
  xlistForEachSafe (removeIn S) n k (last 0 a) (first b 0)
    (k.xlistNext (last 0 a) (first b 0))

/-- The loop from the head `h` of a list, with no node in front of it, ends, visits every node of
the list in order, and leaves a list of the nodes that are not in `S`. -/
def Traverses (k : XorHeads w) (S : Finset (BitVec w)) (l : List (BitVec w)) : Prop :=
  ∃ n k', xlistForEachSafe (removeIn S) n k 0 (l.getD 0 0) (k.xlistNext 0 (l.getD 0 0))
    = some (k', l) ∧ Represents k' (l.filter (· ∉ S))

variable {k' : XorHeads w} {S : Finset (BitVec w)} {v : List (BitVec w)} {n : ℕ}

/-- The loop visits the node it is at first. -/
theorem first_of_forEachSafe {body : XorHeads w → BitVec w → BitVec w → XorHeads w}
    {p s : BitVec w} (h : xlistForEachSafe body n k p c s = some (k', v)) :
  first v 0 = c
  := by
  cases n with
  | zero =>
      rw [xlistForEachSafe, Option.ite_none_right_eq_some] at h
      obtain ⟨hc, h⟩ := h
      obtain ⟨-, rfl⟩ := Prod.mk.inj (Option.some.inj h)
      rw [first_nil, hc]
  | succ n =>
      rw [xlistForEachSafe] at h
      split at h
      · rename_i hc
        obtain ⟨-, rfl⟩ := Prod.mk.inj (Option.some.inj h)
        rw [first_nil, hc]
      · obtain ⟨⟨k₁, v₁⟩, -, h⟩ := Option.map_eq_some_iff.mp h
        obtain ⟨-, rfl⟩ := Prod.mk.inj h
        apply first_cons

/-- The loop at a node that it keeps goes on to the next node. -/
theorem safeFrom_keep (h : Chain k (a ++ c :: b)) (hc : c ∉ S) :
  safeFrom k S (n + 1) a (c :: b) = (safeFrom k S n (a ++ [c]) b).map fun (k, l) => (k, c :: l)
  := by
  have hzero : c ≠ 0 := ne_zero_of_chain h (by simp)
  rw [safeFrom, first_cons, xlistNext_eq h, xlistForEachSafe, if_neg hzero]
  simp only [removeIn, if_neg hc]
  rw [safeFrom, last_concat]

/-- The loop at the last node, which it removes, ends behind it. -/
theorem safeFrom_last (h : Chain k (a ++ [c])) (hc : c ∈ S) :
  safeFrom k S (n + 1) a [c] = some ((k.xlistRemove (last 0 a) c).1, [c])
  := by
  have hzero : c ≠ 0 := ne_zero_of_chain h (by simp)
  rw [safeFrom, first_cons, xlistNext_eq h, first_nil, xlistForEachSafe, if_neg hzero]
  simp only [removeIn, if_pos hc]
  cases n <;> rfl

/-- The loop that removes a node with a node `m` behind it goes on to the exclusive or of `m`'s
new link and the node removed, and does not visit the nodes of the list. -/
theorem safeFrom_lost {m : BitVec w} (h : Chain k (a ++ c :: m :: b)) (hc : c ∈ S) :
  safeFrom k S n a (c :: m :: b) ≠ some (k', c :: m :: b)
  := by
  have hzero : c ≠ 0 := ne_zero_of_chain h (by simp)
  have hm : m ≠ 0 := ne_zero_of_chain h (by simp)
  have hnodup := List.nodup_cons.mp (List.nodup_middle.mp h.nodup)
  have hcm : m ≠ c := by
    rintro rfl
    apply hnodup.1
    simp
  have hca : c ≠ last 0 a := by
    intro heq
    rcases List.eq_nil_or_concat a with rfl | ⟨a, p, rfl⟩
    · apply hzero heq
    · rw [List.concat_eq_append, last_concat] at heq
      apply hnodup.1
      simp [heq]
  have hlink : (k.xlistRemove (last 0 a) c).1 m = last 0 a ^^^ first b 0 := by
    rw [xlistRemove_eq h, Function.update_of_ne hcm, unlinkNext, Function.update_self]
  intro hrun
  rw [safeFrom, first_cons, xlistNext_eq h, first_cons] at hrun
  cases n with
  | zero =>
      rw [xlistForEachSafe, if_neg hzero] at hrun
      cases hrun
  | succ n =>
      rw [xlistForEachSafe, if_neg hzero] at hrun
      simp only [removeIn, if_pos hc] at hrun
      rw [xlistNext_of_ne _ _ hm, hlink] at hrun
      obtain ⟨⟨k₁, v₁⟩, hrun, heq⟩ := Option.map_eq_some_iff.mp hrun
      simp only [Prod.mk.injEq, List.cons.injEq, true_and] at heq
      obtain ⟨-, rfl⟩ := heq
      cases n with
      | zero =>
          rw [xlistForEachSafe, if_neg hm] at hrun
          cases hrun
      | succ n =>
          rw [xlistForEachSafe, if_neg hm] at hrun
          obtain ⟨⟨k₂, v₂⟩, hrun, heq⟩ := Option.map_eq_some_iff.mp hrun
          simp only [Prod.mk.injEq, List.cons.injEq, true_and] at heq
          obtain ⟨-, rfl⟩ := heq
          -- the rest of the walk starts with the node behind `m`, so `c` is in front of itself
          apply hca
          apply eq_of_xor_eq (first_of_forEachSafe hrun)

/-- A loop that visits the nodes of a list removes none of them but the last. -/
theorem last_of_safeFrom (h : Chain k (a ++ b)) (hrun : safeFrom k S n a b = some (k', b)) :
  ∀ x ∈ b, x ∈ S → b.getLast? = some x
  := by
  induction b generalizing a n with
  | nil =>
      intro x hx
      cases hx
  | cons c b ih =>
      intro x hx hxS
      by_cases hc : c ∈ S
      · cases b with
        | nil =>
            obtain rfl := List.mem_singleton.mp hx
            rfl
        | cons m b => apply absurd hrun (safeFrom_lost h hc)
      · have hxc : x ≠ c := by
          rintro rfl
          apply hc hxS
        have hxb : x ∈ b := List.mem_of_ne_of_mem hxc hx
        cases n with
        | zero =>
            have hzero : c ≠ 0 := ne_zero_of_chain h (by simp)
            rw [safeFrom, first_cons, xlistForEachSafe, if_neg hzero] at hrun
            cases hrun
        | succ n =>
            rw [safeFrom_keep h hc] at hrun
            obtain ⟨⟨k₁, v₁⟩, hrest, heq⟩ := Option.map_eq_some_iff.mp hrun
            simp only [Prod.mk.injEq, List.cons.injEq, true_and] at heq
            obtain ⟨rfl, rfl⟩ := heq
            have hlast := ih (a := a ++ [c]) (by simpa using h) hrest x hxb hxS
            rw [List.getLast?_cons, hlast]
            rfl

/-- A loop that removes no node but the last visits all nodes, and leaves the list without the
nodes removed. -/
theorem exists_safeFrom (h : Chain k (a ++ b)) (hlast : ∀ x ∈ b, x ∈ S → b.getLast? = some x) :
  ∃ k', safeFrom k S b.length a b = some (k', b) ∧ Chain k' (a ++ b.filter (· ∉ S))
  := by
  induction b generalizing a with
  | nil =>
      use k, rfl
      apply h
  | cons c b ih =>
      by_cases hc : c ∈ S
      · have hb : b = [] := by
          have hnodup := (List.nodup_append.mp h.nodup).2.1
          have hclast := hlast c List.mem_cons_self hc
          rcases List.eq_nil_or_concat b with rfl | ⟨b, z, rfl⟩
          · rfl
          · rw [List.concat_eq_append] at hclast hnodup
            obtain rfl : z = c := by simpa [List.getLast?_cons] using hclast
            simp at hnodup
        subst hb
        rw [List.length_singleton, safeFrom_last h hc]
        use (k.xlistRemove (last 0 a) c).1, rfl
        have hremove := xlistRemove_chain h
        simpa [hc] using hremove
      · have hlast' (x : BitVec w) (hx : x ∈ b) (hxS : x ∈ S) : b.getLast? = some x := by
          have hxlast := hlast x (List.mem_cons_of_mem c hx) hxS
          rw [List.getLast?_cons] at hxlast
          cases hb : b.getLast? with
          | none =>
              rw [List.getLast?_eq_none_iff] at hb
              subst hb
              cases hx
          | some z => simpa [hb] using hxlast
        obtain ⟨k', hrun, hchain⟩ := ih (a := a ++ [c]) (by simpa using h) hlast'
        rw [List.length_cons, safeFrom_keep h hc, hrun]
        use k', rfl
        simpa [hc] using hchain

theorem safeFrom_nil (k : XorHeads w) (S : Finset (BitVec w)) (n : ℕ) (l : List (BitVec w)) :
  safeFrom k S n [] l
    = xlistForEachSafe (removeIn S) n k 0 (l.getD 0 0) (k.xlistNext 0 (l.getD 0 0))
  := by
  have hfirst : first l 0 = l.getD 0 0 := by
    rw [← first_drop, List.drop_zero]
  rw [safeFrom, last_nil, hfirst]

/-- A loop that removes nodes of a list is safe exactly when it removes none but the last one. -/
theorem traverses_iff (h : Chain k l) (hS : ∀ x ∈ S, x ∈ l) :
  Traverses k S l ↔ ∀ x ∈ S, l.getLast? = some x
  := by
  constructor
  · rintro ⟨n, k', hrun, -⟩ x hx
    rw [← safeFrom_nil] at hrun
    apply last_of_safeFrom h hrun x (hS x hx) hx
  · intro hlast
    obtain ⟨k', hrun, hchain⟩ := exists_safeFrom (a := []) h fun x _ hx => hlast x hx
    use l.length, k'
    rw [← safeFrom_nil]
    use hrun
    apply represents_of_chain hchain

/-- The links of a list of three nodes. -/
def three : XorHeads 16 := fun a =>
  if a = 0x100 then 0x120
  else if a = 0x120 then 0x100 ^^^ 0x140
  else if a = 0x140 then 0x120
  else 0

theorem three_chain : Chain three [0x100, 0x120, 0x140] := by
  constructor
  case nodup => decide
  case ne_zero => decide
  case segment => exact ⟨rfl, rfl, rfl, trivial⟩

/-- The last of three nodes is removed. -/
theorem traverses_iff_three :
  Traverses three {0x140} [0x100, 0x120, 0x140] ↔
    ∀ x ∈ ({0x140} : Finset (BitVec 16)), [0x100, 0x120, 0x140].getLast? = some x
  := by
  apply traverses_iff three_chain
  simp

/-- The first of three nodes is removed, and the loop does not visit the others. -/
theorem not_traverses_first :
  Chain three [0x100, 0x120, 0x140] ∧ ¬ Traverses three {0x100} [0x100, 0x120, 0x140]
  := by
  use three_chain
  rintro ⟨n, k', hrun, -⟩
  rw [← safeFrom_nil] at hrun
  apply safeFrom_lost (a := []) three_chain (Finset.mem_singleton_self _) hrun

end XorHeads

/-! ### Runs -/

/-- A list in memory, with the sequence of the addresses of its nodes. -/
structure XorSystem (w : ℕ) where
  heads : XorHeads w
  seq : List (BitVec w)

/-- The operations of a list, at a position. -/
inductive XorOp (w : ℕ) where
  | add (i : ℕ) (node : BitVec w)
  | remove (i : ℕ)

namespace XorSystem

/-- An operation at a position of the list; a node that is added is not on the list. -/
def step (s : XorSystem w) : XorOp w → Option (XorSystem w)
  | .add i node =>
      s.seq[i]?.bind fun curr =>
        if node ≠ 0 ∧ node ∉ s.seq then
          some
            { heads := (s.heads.xlistAdd (XorHeads.before s.seq i) curr node).1
              seq := s.seq.insertIdx (i + 1) node }
        else
          none
  | .remove i =>
      s.seq[i]?.map fun node =>
        { heads := (s.heads.xlistRemove (XorHeads.before s.seq i) node).1
          seq := s.seq.eraseIdx i }

/-- An operation keeps the list represented. -/
theorem chain_of_step {s s' : XorSystem w} {l : XorOp w} (h : XorChain.Chain s.heads s.seq)
    (hs : s.step l = some s') :
  XorChain.Chain s'.heads s'.seq
  := by
  cases l with
  | add i node =>
      obtain ⟨curr, hcurr, hs⟩ := Option.bind_eq_some_iff.mp hs
      obtain ⟨hi, rfl⟩ := List.getElem?_eq_some_iff.mp hcurr
      split at hs
      · rename_i hnode
        obtain rfl := Option.some.inj hs
        apply ((XorHeads.represents_of_chain h).add i hi node hnode.1 hnode.2).1
      · cases hs
  | remove i =>
      obtain ⟨node, hnode, rfl⟩ := Option.map_eq_some_iff.mp hs
      obtain ⟨hi, rfl⟩ := List.getElem?_eq_some_iff.mp hnode
      apply ((XorHeads.represents_of_chain h).remove i hi).1

/-- From a list in memory, every run of additions and removals leads to a memory that represents
the sequence. -/
theorem represents_of_run {s s' : XorSystem w} (hs : XorChain.Chain s.heads s.seq)
    (hrun : Run.Reachable step s s') :
  XorHeads.Represents s'.heads s'.seq
  := by
  apply XorHeads.represents_of_chain
  apply hrun.invariant (fun s => XorChain.Chain s.heads s.seq) hs
  intro u l v hu _ hv
  apply chain_of_step hu hv

/-- A list of one node. -/
def single (node : BitVec w) : XorSystem w where
  heads := fun _ => 0
  seq := [node]

/-- Three nodes are added behind the first one, and the first and the last one are removed. -/
def trimmed : List (XorOp 16) :=
  [.add 0 0x120, .add 1 0x140, .add 1 0x160, .remove 0, .remove 2]

/-- The theorem applied to additions and to removals at both ends. -/
theorem represents_of_run_trimmed :
  ∃ s : XorSystem 16, Run.exec step (single 0x100) trimmed = some s ∧ s.seq = [0x120, 0x160] ∧
    XorHeads.Represents s.heads s.seq
  := by
  obtain ⟨s, hs, htest⟩ := Run.exists_of_any step (single (0x100 : BitVec 16)) trimmed
    (fun s => s.seq = [0x120, 0x160]) (by decide)
  use s, hs, of_decide_eq_true htest
  apply represents_of_run _ (Run.reachable_of_exec trimmed hs)
  constructor
  case nodup => simp [single]
  case ne_zero => simp [single]
  case segment => exact ⟨rfl, trivial⟩

end XorSystem

end Etaos.Lib
