import Etaos.Vm.Heap
import Etaos.Library.DoubleChain
import Etaos.Library.Insertion
import Mathlib.Algebra.BigOperators.Group.List.Basic

/-!
# The list of the free chunks

The free chunks are a doubly linked list that is sorted by their sizes.  A chunk that is linked
goes behind the chunks that are smaller, and the walk for a request ends at the smallest chunk
that can hold it.  Only the links of the chunks on the list are written.
-/

namespace Etaos.Vm

open Chain Insertion

/-- Two chunks of at least the minimal size. -/
def Apart (p q : ℕ) : Prop :=
  p + HEAP_MIN_CHUNK_SIZE ≤ q ∨ q + HEAP_MIN_CHUNK_SIZE ≤ p

/-- The chunks at some addresses are equal or apart. -/
def Spaced (l : List ℕ) : Prop :=
  ∀ p ∈ l, ∀ q ∈ l, p = q ∨ Apart p q

/-- Some of the chunks are apart from one another when all are. -/
theorem Spaced.mono {l l' : List ℕ} (hl : Spaced l) (hsub : l' ⊆ l) : Spaced l' :=
  fun p hp q hq => hl p (hsub hp) q (hsub hq)

/-- A chunk that is apart from the others comes in. -/
theorem Spaced.cons {l : List ℕ} {p : ℕ} (hl : Spaced l) (h : ∀ q ∈ l, Apart p q) :
  Spaced (p :: l)
  := by
  intro x hx y hy
  rcases List.mem_cons.mp hx with rfl | hx' <;> rcases List.mem_cons.mp hy with rfl | hy'
  · exact .inl rfl
  · exact .inr (h y hy')
  · exact .inr (Or.symm (h x hx'))
  · exact hl x hx' y hy'

/-- A chunk is not apart from itself. -/
theorem not_mem_of_apart {l : List ℕ} {p : ℕ} (h : ∀ q ∈ l, Apart p q) : p ∉ l := by
  intro hmem
  have := h p hmem
  simp only [Apart, HEAP_MIN_CHUNK_SIZE] at this
  omega

namespace Memory

variable {m : Memory} {p q : ℕ} {v place : Option ℕ}

/-- A pointer that is null or an address. -/
def Valid (v : Option ℕ) : Prop :=
  ∀ q ∈ v, 0 < q ∧ q < 2 ^ 16

/-- A pointer that is read fits a word. -/
theorem valid_ptr (m : Memory) (a : ℕ) : Valid (m.ptr a) := by
  intro q hq
  use pos_of_ptr hq
  rw [Option.mem_def, ptr] at hq
  split at hq
  · cases hq
  · obtain rfl := Option.some.inj hq
    apply BitVec.isLt

theorem valid_next (m : Memory) (p : ℕ) : Valid (m.next p) := valid_ptr m (p + 4)

theorem valid_prev (m : Memory) (p : ℕ) : Valid (m.prev p) := valid_ptr m (p + 2)

/-- What is written into a link is read from it, and not from the links of other chunks. -/
theorem next_setNext (hv : Valid v) (h : p = q ∨ Apart p q) :
  (m.setNext p v).next q = Function.update m.next p v q
  := by
  rcases h with rfl | h
  · rw [Function.update_self]
    apply ptr_setPtr_self hv
  · simp only [Apart, HEAP_MIN_CHUNK_SIZE] at h
    rw [Function.update_of_ne (by omega)]
    apply ptr_setPtr_of_disjoint
    omega

/-- The same of the other link. -/
theorem prev_setPrev (hv : Valid v) (h : p = q ∨ Apart p q) :
  (m.setPrev p v).prev q = Function.update m.prev p v q
  := by
  rcases h with rfl | h
  · rw [Function.update_self]
    apply ptr_setPtr_self hv
  · simp only [Apart, HEAP_MIN_CHUNK_SIZE] at h
    rw [Function.update_of_ne (by omega)]
    apply ptr_setPtr_of_disjoint
    omega

/-- The two links of a chunk are different words. -/
theorem next_setPrev (h : p = q ∨ Apart p q) : (m.setPrev p v).next q = m.next q := by
  simp only [Apart, HEAP_MIN_CHUNK_SIZE] at h
  apply ptr_setPtr_of_disjoint
  omega

theorem prev_setNext (h : p = q ∨ Apart p q) : (m.setNext p v).prev q = m.prev q := by
  simp only [Apart, HEAP_MIN_CHUNK_SIZE] at h
  apply ptr_setPtr_of_disjoint
  omega

/-- A pointer is written into the two bytes of a link. -/
theorem setNext_apply {c : ℕ} (h : c < p + 2 ∨ p + 6 ≤ c) : m.setNext p v c = m c := by
  apply setWord_apply_of_ne <;> omega

/-- The same of the other link. -/
theorem setPrev_apply {c : ℕ} (h : c < p + 2 ∨ p + 6 ≤ c) : m.setPrev p v c = m c := by
  apply setWord_apply_of_ne <;> omega

/-- A write into the place of `next` that is behind a chunk, if there is one. -/
def linkNext (place v : Option ℕ) (m : Memory) : Memory :=
  match place with
  | none => m
  | some q => m.setNext q v

/-- A write into the place of `prev` that is before a chunk, if there is one. -/
def linkPrev (place v : Option ℕ) (m : Memory) : Memory :=
  match place with
  | none => m
  | some q => m.setPrev q v

/-- The pointer to a chunk is in the head of the list or in the chunk before it. -/
theorem next_linkNext (head : Option ℕ) (hv : Valid v) (h : ∀ p ∈ place, p = q ∨ Apart p q) :
  (m.linkNext place v).next q = (splice m.next head place v).2 q
  := by
  cases place with
  | none => rfl
  | some p => apply next_setNext hv (h p rfl)

/-- The pointer back to a chunk is in the chunk behind it, if there is one. -/
theorem prev_linkPrev (head : Option ℕ) (hv : Valid v) (h : ∀ p ∈ place, p = q ∨ Apart p q) :
  (m.linkPrev place v).prev q = (splice m.prev head place v).2 q
  := by
  cases place with
  | none => rfl
  | some p => apply prev_setPrev hv (h p rfl)

theorem next_linkPrev (h : ∀ p ∈ place, p = q ∨ Apart p q) :
  (m.linkPrev place v).next q = m.next q
  := by
  cases place with
  | none => rfl
  | some p => apply next_setPrev (h p rfl)

theorem prev_linkNext (h : ∀ p ∈ place, p = q ∨ Apart p q) :
  (m.linkNext place v).prev q = m.prev q
  := by
  cases place with
  | none => rfl
  | some p => apply prev_setNext (h p rfl)

/-- Nothing but a link is written. -/
theorem linkNext_apply {c : ℕ} (h : ∀ p ∈ place, c < p + 2 ∨ p + 6 ≤ c) :
  m.linkNext place v c = m c
  := by
  cases place with
  | none => rfl
  | some p => apply setNext_apply (h p rfl)

theorem linkPrev_apply {c : ℕ} (h : ∀ p ∈ place, c < p + 2 ∨ p + 6 ≤ c) :
  m.linkPrev place v c = m c
  := by
  cases place with
  | none => rfl
  | some p => apply setPrev_apply (h p rfl)

end Memory

namespace Heap

/-- The free chunks are the nodes of `l`. -/
structure FreeList (h : Heap) (l : List ℕ) : Prop where
  list : DoubleChain.IsList h.mem.next h.mem.prev h.pfreelist l
  sorted : SortedBy h.chunkSize l
  avail : h.avail = (l.map h.chunkSize).sum

/-- The list is determined by the first bytes of its chunks. -/
theorem FreeList.congr {h h' : Heap} {l : List ℕ} (hf : h.FreeList l)
    (hmem : ∀ y ∈ l, ∀ c, y ≤ c → c < y + 6 → h'.mem c = h.mem c)
    (hhead : h'.pfreelist = h.pfreelist) (havail : h'.avail = h.avail) :
  h'.FreeList l
  := by
  have hword (y : ℕ) (hy : y ∈ l) (k : ℕ) (hk : k ≤ 4) :
      h'.mem.word (y + k) = h.mem.word (y + k) := by
    apply Memory.word_congr <;> apply hmem y hy <;> omega
  have hsize (y : ℕ) (hy : y ∈ l) : h'.chunkSize y = h.chunkSize y :=
    congrArg Desc.chunkSize (hword y hy 0 (by omega))
  constructor
  · rw [hhead]
    apply hf.list.congr
    · intro y hy
      apply Memory.ptr_congr (hword y hy 4 le_rfl)
    · intro y hy
      apply Memory.ptr_congr (hword y hy 2 (by omega))
  · apply hf.sorted.congr hsize
  · rw [havail, hf.avail, List.map_congr_left hsize]

/-- Only the list, its size and the links of the chunks of `l` change. -/
structure Relinked (l : List ℕ) (h h' : Heap) : Prop where
  eq : h' = { h with mem := h'.mem, pfreelist := h'.pfreelist, avail := h'.avail }
  frame : ∀ c, (∀ y ∈ l, c < y + 2 ∨ y + 6 ≤ c) → h'.mem c = h.mem c

variable {h h' h'' : Heap} {l l' a b : List ℕ} {x p size : ℕ}

/-- Two changes of the links one after the other. -/
theorem Relinked.trans (hh' : Relinked l h h') (hh'' : Relinked l h' h'') :
  Relinked l h h''
  := by
  constructor
  · rw [hh''.eq, hh'.eq]
  · intro c hc
    rw [hh''.frame c hc, hh'.frame c hc]

/-- A change of the links of some chunks is one of more chunks. -/
theorem Relinked.mono (hh' : Relinked l h h') (hl : l ⊆ l') : Relinked l' h h' := by
  use hh'.eq
  intro c hc
  apply hh'.frame c fun y hy => hc y (hl hy)

/-- The descriptor of a chunk is not changed. -/
theorem Relinked.desc (hh' : Relinked l h h') (hp : ∀ y ∈ l, y = p ∨ Apart y p) :
  h'.mem.desc p = h.mem.desc p
  := by
  simp only [Apart, HEAP_MIN_CHUNK_SIZE] at hp
  apply Memory.word_congr <;>
  · apply hh'.frame
    intro y hy
    have := hp y hy
    omega

/-- The size of a chunk is not in its links. -/
theorem Relinked.chunkSize (hh' : Relinked l h h') (hp : ∀ y ∈ l, y = p ∨ Apart y p) :
  h'.chunkSize p = h.chunkSize p
  := congrArg Desc.chunkSize (hh'.desc hp)

/-! ### Unlinking -/

/-- The neighbours of the chunk are linked to one another. -/
theorem unlinkFromFreelist_eq (hnext : ∀ q ∈ h.mem.next x, Apart q x) :
  h.unlinkFromFreelist x
    = { h with
        mem := (h.mem.linkPrev (h.mem.next x) (h.mem.prev x)).linkNext (h.mem.prev x)
          (h.mem.next x)
        pfreelist := (splice h.mem.next h.pfreelist (h.mem.prev x) (h.mem.next x)).1
        avail := (h.avail + 2 ^ 32 - h.chunkSize x) % 2 ^ 32 }
  := by
  cases hn : h.mem.next x with
  | none => cases hp : h.mem.prev x <;> simp [unlinkFromFreelist, hn, hp, chunkSize, splice,
      Memory.linkPrev, Memory.linkNext]
  | some q =>
      have hqx : Apart q x := hnext q hn
      have hne : x ≠ q := by
        rintro rfl
        simp only [Apart, HEAP_MIN_CHUNK_SIZE] at hqx
        omega
      have hn' : (h.mem.setPrev q (h.mem.prev x)).next x = some q := by
        rw [Memory.next_setPrev (.inr hqx), hn]
      have hp' : (h.mem.setPrev q (h.mem.prev x)).prev x = h.mem.prev x := by
        rw [Memory.prev_setPrev (Memory.valid_prev _ _) (.inr hqx), Function.update_of_ne hne]
      cases hp : h.mem.prev x <;> rw [hp] at hn' hp' <;>
        simp [unlinkFromFreelist, hn, hp, hn', hp', chunkSize, splice, Memory.linkPrev,
          Memory.linkNext]

/-- A chunk is unlinked. -/
theorem FreeList.unlink (hf : h.FreeList (a ++ x :: b)) (hs : Spaced (a ++ x :: b))
    (havail : h.avail < 2 ^ 32) :
  (h.unlinkFromFreelist x).FreeList (a ++ b) ∧
    Relinked (a ++ b) h (h.unlinkFromFreelist x)
  := by
  have hnext : h.mem.next x = b.head? := hf.list.next_middle
  have hprev : h.mem.prev x = a.getLast? := hf.list.prev_middle
  have hsub : a ++ b ⊆ a ++ x :: b := by grind
  have hxmem : x ∈ a ++ x :: b := by simp
  have hb : ∀ q ∈ b.head?, q ∈ a ++ b := by
    intro q hq
    apply List.mem_append_right
    apply List.mem_of_head? hq
  have ha : ∀ q ∈ a.getLast?, q ∈ a ++ b := by
    intro q hq
    apply List.mem_append_left
    apply List.mem_of_getLast? hq
  have hx : x ∉ a ++ b := (List.nodup_cons.mp (List.nodup_middle.mp hf.list.nodup)).1
  have heq := unlinkFromFreelist_eq (x := x) (h := h) (by
    intro q hq
    rw [hnext] at hq
    rcases hs q (hsub (hb q hq)) x hxmem with rfl | hqx
    · exact absurd (hb q hq) hx
    · exact hqx)
  rw [hnext, hprev] at heq
  have hrelinked : Relinked (a ++ b) h (h.unlinkFromFreelist x) := by
    constructor
    · rw [heq]
    · intro c hc
      rw [heq]
      dsimp only
      rw [Memory.linkNext_apply fun q hq => hc q (ha q hq),
        Memory.linkPrev_apply fun q hq => hc q (hb q hq)]
  have hsize (y : ℕ) (hy : y ∈ a ++ b) : (h.unlinkFromFreelist x).chunkSize y = h.chunkSize y :=
    hrelinked.chunkSize fun z hz => hs z (hsub hz) y (hsub hy)
  refine ⟨⟨?_, ?_, ?_⟩, hrelinked⟩
  · apply hf.list.remove
    · intro y hy
      rw [heq]
      dsimp only
      rw [Memory.next_linkNext h.pfreelist (hnext ▸ Memory.valid_next _ _)
        fun q hq => hs q (hsub (ha q hq)) y (hsub hy)]
      apply DoubleChain.splice_congr
      apply Memory.next_linkPrev fun q hq => hs q (hsub (hb q hq)) y (hsub hy)
    · intro y hy
      rw [heq]
      dsimp only
      rw [Memory.prev_linkNext fun q hq => hs q (hsub (ha q hq)) y (hsub hy)]
      apply Memory.prev_linkPrev none (hprev ▸ Memory.valid_prev _ _)
        fun q hq => hs q (hsub (hb q hq)) y (hsub hy)
    · rw [heq]
  · apply (hf.sorted.sublist (by simp)).congr hsize
  · have hsum : ((a ++ b).map (h.unlinkFromFreelist x).chunkSize) = (a ++ b).map h.chunkSize :=
      List.map_congr_left hsize
    have havail' := hf.avail
    rw [hsum, heq]
    dsimp only
    simp only [List.map_append, List.map_cons, List.sum_append, List.sum_cons] at havail' ⊢
    omega

/-! ### Linking -/

/-- The walk ends at the first chunk that is not smaller, or else at the last one. -/
theorem scan_eq (size : ℕ) :
    ∀ {fuel first : ℕ} {l : List ℕ}, IsChain h.mem.next (some first) l → l.length ≤ fuel →
      h.scan size fuel first
        = ((l.dropWhile fun y => h.chunkSize y < size).head?).or l.getLast?
  | _, _, [], hl, _ => absurd hl (by simp [Chain.IsChain])
  | fuel + 1, first, y :: l, ⟨hy, hl⟩, hfuel => by
      obtain rfl := Option.some.inj hy
      rw [List.length_cons, Nat.add_le_add_iff_right] at hfuel
      rw [scan]
      by_cases hsize : h.chunkSize first < size
      · rw [if_pos hsize, List.dropWhile_cons_of_pos (by simpa using hsize)]
        cases l with
        | nil =>
            have hnext : h.mem.next first = none := hl
            rw [hnext]
            rfl
        | cons z l =>
            rw [hl.1]
            dsimp only
            rw [scan_eq size (l := z :: l) ⟨rfl, hl.2⟩ hfuel, List.getLast?_cons_cons]
      · rw [if_neg hsize, List.dropWhile_cons_of_neg (by simpa using hsize)]
        rfl

/-- The search does not look at `avail`. -/
theorem scan_avail {size avail : ℕ} :
    ∀ {fuel first : ℕ}, ({ h with avail } : Heap).scan size fuel first = h.scan size fuel first
  | 0, _ => rfl
  | fuel + 1, first => by
      rw [scan, scan]
      cases h.mem.next first with
      | none => rfl
      | some q =>
          dsimp only
          rw [scan_avail]
          rfl

/-- The chunk is linked in where the walk ends. -/
theorem linkToFreelist_of_scan {first s : ℕ} (hfirst : h.pfreelist = some first)
    (hscan : h.scan (h.chunkSize x) h.size first = some s) :
  h.linkToFreelist x
    = some (({ h with avail := (h.avail + h.chunkSize x) % 2 ^ 32 } : Heap).linkAt x s)
  := by
  have hscan' : ({ h with avail := (h.avail + h.chunkSize x) % 2 ^ 32 } : Heap).scan
      (h.chunkSize x) h.size first = some s := scan_avail.trans hscan
  simp only [linkToFreelist, hfirst]
  rw [hfirst] at hscan'
  exact congrArg _ hscan'

/-- What the fields of a chunk are when it was linked in between two parts of the list. -/
structure LinkedAt (h h' : Heap) (a b : List ℕ) (x : ℕ) : Prop where
  next : ∀ y ∈ a ++ x :: b, h'.mem.next y
    = Function.update (splice h.mem.next h.pfreelist a.getLast? (some x)).2 x b.head? y
  prev : ∀ y ∈ a ++ x :: b, h'.mem.prev y
    = Function.update (splice h.mem.prev none b.head? (some x)).2 x a.getLast? y
  head : h'.pfreelist = (splice h.mem.next h.pfreelist a.getLast? (some x)).1
  relinked : Relinked (a ++ x :: b) h h'
  avail : h'.avail = h.avail

/-- The last chunk is smaller. -/
theorem linkedAt_behind {s : ℕ} (hlist : DoubleChain.IsList h.mem.next h.mem.prev h.pfreelist
      (a ++ [s])) (hs : Spaced (a ++ [s] ++ [x])) (hx : x ∉ a ++ [s]) (hvalid : 0 < x ∧ x < 2 ^ 16)
    (hvalid' : 0 < s ∧ s < 2 ^ 16) (hsize : h.chunkSize s < h.chunkSize x) :
  LinkedAt h (h.linkAt x s) (a ++ [s]) [] x
  := by
  have hnext : h.mem.next s = none := hlist.next_middle
  have hx' : ∀ y ∈ a ++ [s] ++ [x], x = y ∨ Apart x y := hs x (by simp)
  have hs' : ∀ y ∈ a ++ [s] ++ [x], s = y ∨ Apart s y := hs s (by simp)
  have hne : x ≠ s := by
    rintro rfl
    simp at hx
  rw [linkAt, if_pos hsize, hnext]
  constructor
  · intro y hy
    dsimp only
    rw [Memory.next_setPrev (hx' y hy), Memory.next_setNext (by simpa [Memory.Valid] using hvalid)
      (hs' y hy)]
    simp only [Function.update_apply, List.getLast?_append, splice]
    rw [Memory.next_setNext (by simp [Memory.Valid]) (hx' y hy)]
    simp only [Function.update_apply, List.getLast?_singleton, Option.some_or, List.head?_nil]
    grind
  · intro y hy
    dsimp only
    rw [Memory.prev_setPrev (by simpa [Memory.Valid] using hvalid') (hx' y hy)]
    simp only [Function.update_apply, List.getLast?_append, splice]
    rw [Memory.prev_setNext (hs' y hy), Memory.prev_setNext (hx' y hy)]
    simp
  · simp [splice]
  · constructor
    · rfl
    · intro c hc
      dsimp only
      rw [Memory.setPrev_apply (hc x (by simp)), Memory.setNext_apply (hc s (by simp)),
        Memory.setNext_apply (hc x (by simp))]
  · rfl

/-- The chunk `s` is not smaller. -/
theorem linkedAt_before {s : ℕ} (hlist : DoubleChain.IsList h.mem.next h.mem.prev h.pfreelist
      (a ++ s :: b)) (hs : Spaced (a ++ x :: s :: b)) (hx : x ∉ a ++ s :: b)
    (hvalid : 0 < x ∧ x < 2 ^ 16) (hvalid' : 0 < s ∧ s < 2 ^ 16)
    (hsize : ¬ h.chunkSize s < h.chunkSize x) :
  LinkedAt h (h.linkAt x s) a (s :: b) x
  := by
  have hprev : h.mem.prev s = a.getLast? := hlist.prev_middle
  have hx' : ∀ y ∈ a ++ x :: s :: b, x = y ∨ Apart x y := hs x (by simp)
  have hs' : ∀ y ∈ a ++ x :: s :: b, s = y ∨ Apart s y := hs s (by simp)
  have hxs : x ≠ s := by
    rintro rfl
    simp at hx
  have hmem : h.linkAt x s
      = { h with
          mem := (((h.mem.setNext x (some s)).setPrev x a.getLast?).linkNext a.getLast?
            (some x)).setPrev s (some x)
          pfreelist := (splice h.mem.next h.pfreelist a.getLast? (some x)).1 } := by
    have hprev' : (h.mem.setNext x (some s)).prev s = a.getLast? := by
      rw [Memory.prev_setNext (hx' s (by simp)), hprev]
    have hprev'' : ((h.mem.setNext x (some s)).setPrev x a.getLast?).prev s = a.getLast? := by
      rw [Memory.prev_setPrev (hprev ▸ Memory.valid_prev _ _) (hx' s (by simp)),
        Function.update_of_ne hxs.symm, hprev']
    rw [linkAt, if_neg hsize]
    dsimp only
    rw [hprev', hprev'']
    cases a.getLast? <;> rfl
  have ha : ∀ q ∈ a.getLast?, q ∈ a ++ x :: s :: b := by
    intro q hq
    apply List.mem_append_left _ (List.mem_of_getLast? hq)
  have ha' (y : ℕ) (hy : y ∈ a ++ x :: s :: b) : ∀ q ∈ a.getLast?, q = y ∨ Apart q y :=
    fun q hq => hs q (ha q hq) y hy
  rw [hmem]
  constructor
  · intro y hy
    dsimp only
    rw [Memory.next_setPrev (hs' y hy), Memory.next_linkNext h.pfreelist
      (by simpa [Memory.Valid] using hvalid) (ha' y hy)]
    by_cases hyx : y = x
    · subst hyx
      have hne : a.getLast? ≠ some y := by
        intro heq
        apply hx (List.mem_append_left _ (List.mem_of_getLast? heq))
      rw [Function.update_self, splice_apply_of_ne hne, Memory.next_setPrev (.inl rfl),
        Memory.next_setNext (by simpa [Memory.Valid] using hvalid') (.inl rfl),
        Function.update_self, List.head?_cons]
    · rw [Function.update_of_ne hyx]
      apply DoubleChain.splice_congr
      rw [Memory.next_setPrev (hx' y hy),
        Memory.next_setNext (by simpa [Memory.Valid] using hvalid') (hx' y hy),
        Function.update_of_ne hyx]
  · intro y hy
    dsimp only
    rw [Memory.prev_setPrev (by simpa [Memory.Valid] using hvalid) (hs' y hy)]
    have hrest : ((((h.mem.setNext x (some s)).setPrev x a.getLast?).linkNext a.getLast?
        (some x)).prev y) = Function.update h.mem.prev x a.getLast? y := by
      rw [Memory.prev_linkNext (ha' y hy), Memory.prev_setPrev (hprev ▸ Memory.valid_prev _ _)
        (hx' y hy), Function.update_apply, Function.update_apply, Memory.prev_setNext (hx' y hy)]
    rw [Function.update_apply, hrest]
    simp only [List.head?_cons, splice, Function.update_apply]
    grind
  · rfl
  · constructor
    · rfl
    · intro c hc
      dsimp only
      rw [Memory.setPrev_apply (hc s (by simp)), Memory.linkNext_apply fun q hq => hc q (ha q hq),
        Memory.setPrev_apply (hc x (by simp)), Memory.setNext_apply (hc x (by simp))]
  · rfl

/-- The first chunk of the list. -/
theorem linkedAt_nil :
  LinkedAt h { h with pfreelist := some x, mem := (h.mem.setNext x none).setPrev x none } [] [] x
  := by
  constructor
  · intro y hy
    obtain rfl := List.mem_singleton.mp hy
    dsimp only
    rw [Memory.next_setPrev (.inl rfl), Memory.next_setNext (by simp [Memory.Valid]) (.inl rfl)]
    simp
  · intro y hy
    obtain rfl := List.mem_singleton.mp hy
    dsimp only
    rw [Memory.prev_setPrev (by simp [Memory.Valid]) (.inl rfl)]
    simp
  · simp [splice]
  · constructor
    · rfl
    · intro c hc
      dsimp only
      rw [Memory.setPrev_apply (hc x (by simp)), Memory.setNext_apply (hc x (by simp))]
  · rfl

/-- The place where a chunk is linked in is behind the chunks that are smaller. -/
theorem FreeList.linkToFreelist_eq (hf : h.FreeList l) (hs : Spaced (x :: l)) (hx : x ∉ l)
    (hvalid : ∀ y ∈ x :: l, 0 < y ∧ y < 2 ^ 16) (hsize : l.length ≤ h.size) :
  ∃ h', h.linkToFreelist x = some h' ∧
    LinkedAt { h with avail := (h.avail + h.chunkSize x) % 2 ^ 32 } h'
      (l.takeWhile fun y => h.chunkSize y < h.chunkSize x)
      (l.dropWhile fun y => h.chunkSize y < h.chunkSize x) x
  := by
  have hl := List.takeWhile_append_dropWhile (p := fun y => h.chunkSize y < h.chunkSize x) (l := l)
  have hlist := hf.list
  have hperm : (insertBehind (fun y => h.chunkSize y < h.chunkSize x) x l).Perm (x :: l) :=
    perm_insertBehind
  rw [insertBehind] at hperm
  rcases h.pfreelist.eq_none_or_eq_some with hfirst | ⟨first, hfirst⟩
  · obtain rfl : l = [] := IsChain.nil_iff.mp (hfirst ▸ hf.list.next)
    refine ⟨_, ?_, linkedAt_nil⟩
    rw [linkToFreelist, hfirst]
  · have hscan := scan_eq (h.chunkSize x) (hfirst ▸ hf.list.next) hsize
    rw [← hl] at hlist hx
    have hs' := hs.mono hperm.subset
    generalize l.takeWhile (fun y => h.chunkSize y < h.chunkSize x) = a at *
    cases hdrop : l.dropWhile fun y => h.chunkSize y < h.chunkSize x with
    | nil =>
        rw [hdrop] at hscan hlist hx hl hs'
        rw [List.append_nil] at hlist hx hl
        subst hl
        rcases List.eq_nil_or_concat a with rfl | ⟨a, s, rfl⟩
        · cases hfirst.symm.trans hlist.head_eq
        · rw [List.concat_eq_append] at *
          have hlast : (a ++ [s]).getLast? = some s := by simp
          rw [hlast] at hscan
          refine ⟨_, linkToFreelist_of_scan hfirst hscan, ?_⟩
          apply linkedAt_behind (h := { h with avail := (h.avail + h.chunkSize x) % 2 ^ 32 })
            hlist hs' hx (hvalid x (by simp)) (hvalid s (by simp))
          exact of_decide_eq_true (List.dropWhile_eq_nil_iff.mp hdrop s (by simp))
    | cons s b =>
        rw [hdrop] at hscan hlist hx hs' hl
        refine ⟨_, linkToFreelist_of_scan hfirst hscan, ?_⟩
        apply linkedAt_before (h := { h with avail := (h.avail + h.chunkSize x) % 2 ^ 32 })
          hlist hs' hx (hvalid x (by simp)) (hvalid s (by simp [← hl]))
        have hhead := List.head?_dropWhile_not (fun y => decide (h.chunkSize y < h.chunkSize x)) l
        rw [hdrop] at hhead
        have hge : ¬ h.chunkSize s < h.chunkSize x := by simpa using hhead
        exact hge

/-- A chunk is linked in behind the chunks that are smaller. -/
theorem FreeList.link (hf : h.FreeList l) (hs : Spaced (x :: l)) (hx : x ∉ l)
    (hvalid : ∀ y ∈ x :: l, 0 < y ∧ y < 2 ^ 16) (hsize : l.length ≤ h.size)
    (havail : h.chunkSize x + h.avail < 2 ^ 32) :
  ∃ h', h.linkToFreelist x = some h' ∧
    h'.FreeList (insertBehind (fun y => h.chunkSize y < h.chunkSize x) x l) ∧
      Relinked (x :: l) h h'
  := by
  obtain ⟨h', heq, hlinked⟩ := hf.linkToFreelist_eq hs hx hvalid hsize
  have hl := List.takeWhile_append_dropWhile (p := fun y => h.chunkSize y < h.chunkSize x) (l := l)
  have hperm : (insertBehind (fun y => h.chunkSize y < h.chunkSize x) x l).Perm (x :: l) :=
    perm_insertBehind
  have hrelinked : Relinked (x :: l) h h' := by
    have hsub := hlinked.relinked.mono hperm.subset
    exact ⟨hsub.eq, hsub.frame⟩
  have hkeep (y : ℕ) (hy : y ∈ x :: l) : h'.chunkSize y = h.chunkSize y :=
    hrelinked.chunkSize fun z hz => hs z hz y hy
  refine ⟨h', heq, ⟨?_, ?_, ?_⟩, hrelinked⟩
  · apply DoubleChain.IsList.insert _ _ hlinked.next hlinked.prev hlinked.head
    · rw [hl]
      exact hf.list
    · rwa [hl]
  · have hsorted : SortedBy h.chunkSize
        (insertBehind (fun y => h.chunkSize y < h.chunkSize x) x l) := by
      apply hf.sorted.insertBehind
      · intro y _ hlt
        exact (of_decide_eq_true hlt).le
      · intro y _ hge
        exact not_lt.mp (of_decide_eq_false hge)
    apply hsorted.congr
    intro y hy
    apply hkeep y (hperm.mem_iff.mp hy)
  · have hsum := (hperm.map h'.chunkSize).sum_eq
    have hmap : (x :: l).map h'.chunkSize = (x :: l).map h.chunkSize := List.map_congr_left hkeep
    rw [hsum, hmap, hlinked.avail, List.map_cons, List.sum_cons, ← hf.avail]
    dsimp only
    omega

/-! ### The best fit -/

/-- The walk for a request ends at the first chunk that is not smaller. -/
theorem findFit_eq (size : ℕ) :
    ∀ {fuel : ℕ} {p : Option ℕ} {l : List ℕ}, IsChain h.mem.next p l → l.length < fuel →
      h.findFit size fuel p = some (l.find? fun y => size ≤ h.chunkSize y)
  | _ + 1, _, [], hl, _ => by
      obtain rfl : _ = none := hl
      rfl
  | fuel + 1, _, y :: l, ⟨hy, hl⟩, hfuel => by
      subst hy
      rw [findFit]
      by_cases hsize : h.chunkSize y < size
      · rw [if_pos hsize, List.find?_cons_of_neg (by simpa using hsize)]
        apply findFit_eq size hl
        simpa using hfuel
      · rw [if_neg hsize, List.find?_cons_of_pos (by simpa using hsize)]

end Heap

end Etaos.Vm
