import Etaos.Vm.Seglist

/-!
# A segmented list is a list

The slots of the chain of segments hold the items of a list in their order, and behind them null.
The functions do to the list what their names say, and leave other segments as they are.
-/

namespace Etaos.Vm

open Chain Unrolled

variable {α : Type} {segs segs' : Segments α} {sl : Seglist} {nodes : List ℕ} {l s : List α}
  {i k n a b fuel : ℕ} {x : α} {v : Option α} {same : α → α → Bool}

namespace Segments

/-- The item at a position of a chain of segments. -/
def item (segs : Segments α) (nodes : List ℕ) (k : ℕ) : Option α :=
  cell SEGLIST_OBJS_PER_SEG segs.val nodes k

/-- Only the segments of some nodes differ. -/
def Within (nodes : List ℕ) (segs segs' : Segments α) : Prop :=
  ∀ b ∉ nodes, segs' b = segs b

theorem Within.refl (nodes : List ℕ) (segs : Segments α) : Within nodes segs segs :=
  fun _ _ => rfl

theorem Within.mono {nodes' : List ℕ} (h : Within nodes segs segs') (hsub : nodes ⊆ nodes') :
  Within nodes' segs segs'
  := fun b hb => h b fun hmem => hb (hsub hmem)

theorem Within.trans {segs'' : Segments α} (h : Within nodes segs segs')
    (h' : Within nodes segs' segs'') :
  Within nodes segs segs''
  := fun b hb => (h' b hb).trans (h b hb)

/-- The segments that are read, those that are written and those that are given are different. -/
structure Separate (source target fresh : List ℕ) : Prop where
  lists : ∀ a ∈ target, a ∉ source
  source : ∀ a ∈ fresh, a ∉ source
  target : ∀ a ∈ fresh, a ∉ target
  nodup : fresh.Nodup

/-- The segments that are given first may be written. -/
theorem Separate.step {source target target' given fresh : List ℕ}
    (h : Separate source target (given ++ fresh)) (hsub : target' ⊆ target ++ given) :
  Separate source target' fresh
  := by
  obtain ⟨hlists, hsource, htarget, hnodup⟩ := h
  obtain ⟨-, hnodup', hdisj⟩ := List.nodup_append.mp hnodup
  refine ⟨?_, ?_, ?_, hnodup'⟩
  · intro a ha
    rcases List.mem_append.mp (hsub ha) with ha | ha
    · exact hlists a ha
    · exact hsource a (List.mem_append_left _ ha)
  · exact fun a ha => hsource a (List.mem_append_right _ ha)
  · intro a ha hmem
    rcases List.mem_append.mp (hsub hmem) with hmem | hmem
    · exact htarget a (List.mem_append_right _ ha) hmem
    · exact hdisj a hmem a ha rfl

/-- What is read does not change. -/
theorem Separate.within {source target given fresh : List ℕ}
    (h : Separate source target (given ++ fresh))
    (hwithin : Within (target ++ given) segs segs') :
  ∀ a ∈ source, segs' a = segs a
  := by
  refine fun a ha => hwithin a fun hmem => ?_
  rcases List.mem_append.mp hmem with hmem | hmem
  · exact h.lists a hmem ha
  · exact h.source a (List.mem_append_left _ hmem) ha

/-- The slot at a position gets a value: the links stay, and the other items. -/
structure Put (segs segs' : Segments α) (nodes : List ℕ) (i : ℕ) (v : Option α) : Prop where
  link : segs'.link = segs.link
  item : ∀ k, segs'.item nodes k = if k = i then v else segs.item nodes k
  within : Within nodes segs segs'

theorem link_setVal (segs : Segments α) (a k : ℕ) (v : Option α) :
  (segs.setVal a k v).link = segs.link
  := by
  funext b
  by_cases hb : b = a
  · rw [link, setVal, hb, Function.update_self, link]
  · rw [link, setVal, Function.update_of_ne hb, link]

theorem val_setVal (segs : Segments α) (a k : ℕ) (v : Option α) :
  (segs.setVal a k v).val = Function.update segs.val a (Function.update (segs.val a) k v)
  := by
  funext b
  by_cases hb : b = a
  · rw [val, setVal, hb, Function.update_self, Function.update_self, val]
  · rw [val, setVal, Function.update_of_ne hb, Function.update_of_ne hb, val]

theorem put_setVal (segs : Segments α) (hnodup : nodes.Nodup)
    (ha : nodes[i / SEGLIST_OBJS_PER_SEG]? = some a) :
  Put segs (segs.setVal a (i % SEGLIST_OBJS_PER_SEG) v) nodes i v
  := by
  refine ⟨link_setVal segs _ _ v, ?_, ?_⟩
  · intro k
    rw [item, val_setVal, cell_update hnodup ha, item]
  · intro b hb
    apply Function.update_of_ne
    rintro rfl
    exact hb (List.mem_of_getElem? ha)

/-- A position in the chain has a segment. -/
theorem exists_node (nodes : List ℕ) (hi : i < SEGLIST_OBJS_PER_SEG * nodes.length) :
  ∃ a, nodes[i / SEGLIST_OBJS_PER_SEG]? = some a
  := ⟨_, List.getElem?_eq_getElem (Nat.div_lt_of_lt_mul hi)⟩

theorem succ_of_last (h : SEGLIST_OBJS_PER_SEG ≤ i % SEGLIST_OBJS_PER_SEG + 1) :
  (i + 1) / SEGLIST_OBJS_PER_SEG = i / SEGLIST_OBJS_PER_SEG + 1 ∧
    (i + 1) % SEGLIST_OBJS_PER_SEG = 0
  := by
  simp only [SEGLIST_OBJS_PER_SEG] at *
  omega

theorem succ_of_inner (h : ¬ SEGLIST_OBJS_PER_SEG ≤ i % SEGLIST_OBJS_PER_SEG + 1) :
  (i + 1) / SEGLIST_OBJS_PER_SEG = i / SEGLIST_OBJS_PER_SEG ∧
    (i + 1) % SEGLIST_OBJS_PER_SEG = i % SEGLIST_OBJS_PER_SEG + 1
  := by
  simp only [SEGLIST_OBJS_PER_SEG] at *
  omega

/-! ### The loops -/

/-- The objects from a position on move up, and the first one is put there. -/
theorem ripple_eq (hnodup : nodes.Nodup) {root : Option ℕ} (hchain : IsChain segs.link root nodes)
    (ha : nodes[i / SEGLIST_OBJS_PER_SEG]? = some a) (hfuel : s.length < fuel)
    (hroom : i + s.length < SEGLIST_OBJS_PER_SEG * nodes.length)
    (hs : ∀ k, i ≤ k → k < SEGLIST_OBJS_PER_SEG * nodes.length → segs.item nodes k = s[k - i]?) :
  ∃ segs', segs.ripple fuel a (i % SEGLIST_OBJS_PER_SEG) (some x) = some segs' ∧
    segs'.link = segs.link ∧ Within nodes segs segs' ∧
      (∀ k < i, segs'.item nodes k = segs.item nodes k) ∧
        ∀ k, i ≤ k → k < SEGLIST_OBJS_PER_SEG * nodes.length →
          segs'.item nodes k = (x :: s)[k - i]?
  := by
  induction s generalizing fuel segs i a x with
  | nil =>
      obtain ⟨fuel, rfl⟩ : ∃ n, fuel = n + 1 := ⟨fuel - 1, by omega⟩
      have hnone : segs.val a (i % SEGLIST_OBJS_PER_SEG) = none := by
        rw [← cell_eq segs.val ha]
        exact (hs i le_rfl hroom).trans (by simp)
      have hput := put_setVal segs (v := some x) hnodup ha
      refine ⟨segs.setVal a (i % SEGLIST_OBJS_PER_SEG) (some x), ?_, hput.link, hput.within, ?_, ?_⟩
      · rw [ripple, hnone, if_neg (by simp), ripple]
      · intro k hk
        rw [hput.item, if_neg hk.ne]
      · intro k hik hk
        rw [hput.item]
        by_cases hki : k = i
        · rw [if_pos hki, hki, Nat.sub_self]
          rfl
        · rw [if_neg hki, hs k hik hk, List.getElem?_nil, List.getElem?_cons, if_neg (by omega)]
          rfl
  | cons y s ih =>
      obtain ⟨fuel, rfl⟩ : ∃ n, fuel = n + 1 := ⟨fuel - 1, by omega⟩
      rw [List.length_cons] at hfuel hroom
      have hsome : segs.val a (i % SEGLIST_OBJS_PER_SEG) = some y := by
        rw [← cell_eq segs.val ha]
        exact (hs i le_rfl (by omega)).trans (by simp)
      have hput := put_setVal segs (v := some x) hnodup ha
      set segs₁ := segs.setVal a (i % SEGLIST_OBJS_PER_SEG) (some x)
      obtain ⟨b, hb⟩ := exists_node nodes (i := i + 1) (by omega)
      have hchain₁ : IsChain segs₁.link root nodes := by
        rw [hput.link]
        exact hchain
      obtain ⟨segs', heq, hlink, hwithin, hfront, hback⟩ := ih (i := i + 1) (x := y) hchain₁ hb
        (show s.length < fuel by omega) (by omega)
        (by
          intro k hik hk
          rw [hput.item, if_neg (by omega), hs k (by omega) hk, List.getElem?_cons,
            if_neg (by omega), Nat.sub_add_eq])
      refine ⟨segs', ?_, hlink.trans hput.link, hput.within.trans hwithin, ?_, ?_⟩
      · rw [ripple, hsome, ← heq]
        by_cases hlast : SEGLIST_OBJS_PER_SEG ≤ i % SEGLIST_OBJS_PER_SEG + 1
        · obtain ⟨hdiv, hmod⟩ := succ_of_last hlast
          have hnext : segs₁.link a = some b := by
            rw [hput.link, next_eq hchain ha, ← hdiv, hb]
          rw [if_pos ⟨hlast, by simp⟩, hmod]
          exact congrArg (Option.bind · _) hnext
        · obtain ⟨hdiv, hmod⟩ := succ_of_inner hlast
          rw [hdiv, ha] at hb
          obtain rfl := Option.some.inj hb
          rw [if_neg (fun h => hlast h.1), hmod]
      · intro k hk
        rw [hfront k (by omega), hput.item, if_neg hk.ne]
      · intro k hik hk
        by_cases hki : k = i
        · rw [hfront k (by omega), hput.item, if_pos hki, hki, Nat.sub_self]
          rfl
        · rw [hback k (by omega) hk, List.getElem?_cons (l := y :: s), if_neg (by omega),
            Nat.sub_add_eq]

/-- The `n` items behind a position move down. -/
theorem shift_eq (hnodup : nodes.Nodup) {root : Option ℕ} (hchain : IsChain segs.link root nodes)
    (ha : nodes[i / SEGLIST_OBJS_PER_SEG]? = some a)
    (hroom : i + n < SEGLIST_OBJS_PER_SEG * nodes.length) :
  ∃ segs' b, segs.shift n i a = some (segs', b) ∧
    nodes[(i + n) / SEGLIST_OBJS_PER_SEG]? = some b ∧ segs'.link = segs.link ∧
      Within nodes segs segs' ∧
        ∀ k, segs'.item nodes k
          = if i ≤ k ∧ k < i + n then segs.item nodes (k + 1) else segs.item nodes k
  := by
  induction n generalizing segs i a with
  | zero =>
      refine ⟨segs, a, rfl, ha, rfl, Within.refl nodes segs, ?_⟩
      intro k
      rw [if_neg (by omega)]
  | succ n ih =>
      obtain ⟨b, hb⟩ := exists_node nodes (i := i + 1) (by omega)
      set v := segs.item nodes (i + 1) with hv
      have hput := put_setVal segs (v := v) hnodup ha
      set segs₁ := segs.setVal a (i % SEGLIST_OBJS_PER_SEG) v with hsegs₁
      have hchain₁ : IsChain segs₁.link root nodes := by
        rw [hput.link]
        exact hchain
      obtain ⟨segs', c, heq, hc, hlink, hwithin, hitem⟩ := ih (i := i + 1) hchain₁ hb (by omega)
      have hstep : segs.shift (n + 1) i a = segs₁.shift n (i + 1) b := by
        have hval := cell_eq segs.val hb
        rw [shift]
        by_cases hlast : SEGLIST_OBJS_PER_SEG ≤ i % SEGLIST_OBJS_PER_SEG + 1
        · obtain ⟨hdiv, hmod⟩ := succ_of_last hlast
          have hlt := Nat.mod_lt i (show 0 < SEGLIST_OBJS_PER_SEG by decide)
          have hnext : segs.link a = some b := by
            rw [next_eq hchain ha, ← hdiv, hb]
          rw [hmod] at hval
          rw [if_pos (by omega), hnext, Option.bind_some, ← hval]
          rfl
        · obtain ⟨hdiv, hmod⟩ := succ_of_inner hlast
          rw [hdiv, ha] at hb
          obtain rfl := Option.some.inj hb
          rw [hmod] at hval
          rw [if_neg (by omega), ← hval]
          rfl
      refine ⟨segs', c, hstep.trans heq, by rwa [show i + (n + 1) = i + 1 + n by omega],
        hlink.trans hput.link, hput.within.trans hwithin, ?_⟩
      intro k
      rw [hitem, hput.item, hput.item]
      by_cases hki : k = i
      · rw [if_neg (by omega), if_pos hki, if_pos (by omega), hv, hki]
      · by_cases hin : i + 1 ≤ k ∧ k < i + 1 + n
        · rw [if_pos hin, if_neg (by omega), if_pos (by omega)]
        · rw [if_neg hin, if_neg hki, if_neg (by omega)]

/-- The first object from a position on that is equal. -/
theorem find_eq (same : α → α → Bool) (x : α) {root : Option ℕ}
    (hchain : IsChain segs.link root nodes)
    (hfuel : 2 * s.length < fuel) (hlength : n = i + s.length)
    (hroom : n ≤ SEGLIST_OBJS_PER_SEG * nodes.length)
    (hs : ∀ k, i ≤ k → k < SEGLIST_OBJS_PER_SEG * nodes.length → segs.item nodes k = s[k - i]?) :
  segs.find same x n fuel nodes[i / SEGLIST_OBJS_PER_SEG]? (i % SEGLIST_OBJS_PER_SEG) i
    = some ((s.findIdx? (same x)).map (· + i))
  := by
  have hlt := Nat.mod_lt i (show 0 < SEGLIST_OBJS_PER_SEG by decide)
  induction s generalizing fuel i with
  | nil =>
      obtain ⟨fuel, rfl⟩ : ∃ k, fuel = k + 1 := ⟨fuel - 1, by omega⟩
      cases nodes[i / SEGLIST_OBJS_PER_SEG]? with
      | none => rfl
      | some a =>
          rw [find, if_pos hlt, if_pos (by simp [hlength])]
          rfl
  | cons y s ih =>
      rw [List.length_cons] at hfuel hlength
      obtain ⟨fuel, rfl⟩ : ∃ k, fuel = k + 2 := ⟨fuel - 2, by omega⟩
      obtain ⟨a, ha⟩ := exists_node nodes (i := i) (by omega)
      have hsome : segs.val a (i % SEGLIST_OBJS_PER_SEG) = some y := by
        rw [← cell_eq segs.val ha]
        exact (hs i le_rfl (by omega)).trans (by simp)
      rw [ha, find, if_pos hlt, if_neg (by omega), hsome, List.findIdx?_cons]
      by_cases hyx : same x y
      · rw [Option.bind_some, if_pos hyx, if_pos hyx, Option.map_some, Nat.zero_add]
      · have hrest (k : ℕ) (hk : i + 1 ≤ k) (hroom : k < SEGLIST_OBJS_PER_SEG * nodes.length) :
            segs.item nodes k = s[k - (i + 1)]? := by
          rw [hs k (by omega) hroom, List.getElem?_cons, if_neg (by omega), Nat.sub_add_eq]
        have hnext := Nat.mod_lt (i + 1) (show 0 < SEGLIST_OBJS_PER_SEG by decide)
        rw [Option.bind_some, if_neg hyx, if_neg hyx, Option.map_map]
        have hmap : ((fun j => j + i) ∘ fun j => j + 1) = fun j => j + (i + 1) := by
          funext j
          simp only [Function.comp_apply]
          omega
        rw [hmap]
        by_cases hlast : SEGLIST_OBJS_PER_SEG ≤ i % SEGLIST_OBJS_PER_SEG + 1
        · obtain ⟨hdiv, hmod⟩ := succ_of_last hlast
          rw [find, if_neg (by omega), next_eq hchain ha, ← hdiv, ← hmod]
          exact ih (by omega) (by omega) hrest hnext
        · obtain ⟨hdiv, hmod⟩ := succ_of_inner hlast
          rw [← ha, ← hdiv, ← hmod]
          exact ih (by omega) (by omega) hrest hnext

/-- All segments are freed. -/
theorem clear_eq {root : Option ℕ} (hchain : IsChain segs.link root nodes)
    (hfuel : nodes.length < fuel) :
  segs.clear fuel root = some nodes
  := by
  induction nodes generalizing fuel root with
  | nil =>
      obtain ⟨fuel, rfl⟩ : ∃ k, fuel = k + 1 := ⟨fuel - 1, by simp at hfuel; omega⟩
      obtain rfl : root = none := hchain
      rfl
  | cons a nodes ih =>
      obtain ⟨fuel, rfl⟩ : ∃ k, fuel = k + 1 := ⟨fuel - 1, by simp at hfuel; omega⟩
      obtain ⟨rfl, hchain⟩ := hchain
      rw [clear, ih hchain (by simpa using hfuel)]
      rfl

end Segments

namespace Seglist

/-- The segments at `nodes` have the items of `l` in their slots, and null behind them. -/
structure Spread (segs : Segments α) (sl : Seglist) (nodes : List ℕ) (l : List α) : Prop where
  length : sl.slLength = l.length
  chain : IsChain segs.link sl.slRootseg nodes
  last : sl.slLastseg = nodes.getLast?
  item : ∀ k < SEGLIST_OBJS_PER_SEG * nodes.length, segs.item nodes k = l[k]?

/-- The seglist holds the items of `l`, in no more segments than they need. -/
structure Holds (segs : Segments α) (sl : Seglist) (nodes : List ℕ) (l : List α) : Prop
    extends Spread segs sl nodes l where
  size : nodes.length = (l.length + 7) / SEGLIST_OBJS_PER_SEG

theorem holds_new (segs : Segments α) : Holds segs new [] [] :=
  ⟨⟨rfl, rfl, rfl, by simp⟩, by simp [SEGLIST_OBJS_PER_SEG]⟩

/-- Some items in one segment. -/
theorem holds_one {s : List α} (hne : s ≠ []) (hs : s.length ≤ SEGLIST_OBJS_PER_SEG)
    (hseg : segs a = ⟨fun k => s[k]?, none⟩) :
  Holds segs ⟨s.length, some a, some a⟩ [a] s
  := by
  have hpos := List.length_pos_iff.mpr hne
  refine ⟨⟨rfl, ⟨rfl, ?_⟩, rfl, ?_⟩, ?_⟩
  · rw [Segments.link, hseg]
    rfl
  · intro k hk
    have hk : k < SEGLIST_OBJS_PER_SEG := hk
    rw [Segments.item, cell, Nat.div_eq_of_lt hk, Nat.mod_eq_of_lt hk, List.getElem?_cons_zero,
      Option.bind_some, Segments.val, hseg]
  · simp only [SEGLIST_OBJS_PER_SEG, List.length_singleton] at *
    omega

theorem Spread.walk_eq (hs : Spread segs sl nodes l) (n : ℕ) :
  segs.walk n sl.slRootseg = nodes[n]?
  := Unrolled.walk_eq hs.chain

/-- The items do not depend on other segments. -/
theorem Spread.congr (hs : Spread segs sl nodes l) (h : ∀ a ∈ nodes, segs' a = segs a) :
  Spread segs' sl nodes l
  := by
  refine ⟨hs.length, ?_, hs.last, ?_⟩
  · apply segment_congr _ hs.chain
    intro a ha
    rw [Segments.link, h a ha, Segments.link]
  · intro k hk
    rw [← hs.item k hk]
    apply cell_congr
    intro a ha
    rw [Segments.val, h a ha, Segments.val]

namespace Holds

variable (hs : Holds segs sl nodes l)

include hs

theorem congr (h : ∀ a ∈ nodes, segs' a = segs a) : Holds segs' sl nodes l :=
  ⟨hs.toSpread.congr h, hs.size⟩

theorem room : l.length ≤ SEGLIST_OBJS_PER_SEG * nodes.length := by
  have := hs.size
  simp only [SEGLIST_OBJS_PER_SEG] at *
  omega

omit hs in
theorem nodes_nil (hs : Holds segs sl nodes []) : nodes = [] := by
  have hsize := hs.size
  exact List.length_eq_zero_iff.mp (hsize.trans (by simp [SEGLIST_OBJS_PER_SEG]))

/-- The item at an index. -/
theorem getItem_eq (hi : i < l.length) : sl.getItem segs i = some (some l[i]) := by
  have hroom := hs.room
  obtain ⟨a, ha⟩ := Segments.exists_node nodes (i := i) (by omega)
  rw [getItem, hs.walk_eq, ha, Option.map_some, ← cell_eq segs.val ha]
  exact congrArg some ((hs.item i (by omega)).trans (List.getElem?_eq_getElem hi))

/-- The item at an index is replaced. -/
theorem setItem_eq (hi : i < l.length) (x : α) :
  ∃ segs', sl.setItem segs x i = some segs' ∧ Holds segs' sl nodes (l.set i x) ∧
    Segments.Within nodes segs segs'
  := by
  have hroom := hs.room
  obtain ⟨a, ha⟩ := Segments.exists_node nodes (i := i) (by omega)
  have hput := Segments.put_setVal segs (v := some x) hs.chain.nodup ha
  refine ⟨_, by rw [setItem, hs.walk_eq, ha, Option.map_some], ⟨⟨?_, ?_, hs.last, ?_⟩, ?_⟩,
    hput.within⟩
  · rw [hs.length, List.length_set]
  · rw [hput.link]
    exact hs.chain
  · intro k hk
    rw [hput.item, hs.item k hk, List.getElem?_set]
    by_cases hki : i = k
    · rw [if_pos hki.symm, if_pos hki, if_pos hi]
    · rw [if_neg (Ne.symm hki), if_neg hki]
  · rw [hs.size, List.length_set]

/-- The first index with an object that is equal. -/
theorem findEqual_eq (same : α → α → Bool) (x : α) :
  sl.findEqual segs same x 0 = some (l.findIdx? (same x))
  := by
  have hfind := Segments.find_eq same x (s := l) (i := 0) hs.chain
    (show 2 * l.length < 2 * l.length + 3 by omega) (Nat.zero_add _).symm hs.room
    (by simpa using hs.item)
  rw [findEqual, hs.length]
  simp only [Nat.zero_div, Nat.zero_mod, hs.walk_eq] at hfind ⊢
  refine hfind.trans ?_
  cases l.findIdx? (same x) <;> rfl

/-- The segments are freed. -/
theorem clear_eq : sl.clear segs = some (new, nodes) := by
  have hsize := hs.size
  rw [clear, Segments.clear_eq hs.chain]
  · rfl
  · rw [hs.length]
    simp only [SEGLIST_OBJS_PER_SEG] at hsize
    omega

end Holds

/-! ### Insertion -/

theorem link_setNext (segs : Segments α) (a : ℕ) (q : Option ℕ) :
  (segs.setNext a q).link = Function.update segs.link a q
  := by
  funext b
  by_cases hb : b = a
  · rw [Segments.link, Segments.setNext, hb, Function.update_self, Function.update_self]
  · rw [Segments.link, Segments.setNext, Function.update_of_ne hb, Function.update_of_ne hb,
      Segments.link]

theorem val_setNext (segs : Segments α) (a : ℕ) (q : Option ℕ) :
  (segs.setNext a q).val = segs.val
  := by
  funext b
  by_cases hb : b = a
  · rw [Segments.val, Segments.setNext, hb, Function.update_self, Segments.val]
  · rw [Segments.val, Segments.setNext, Function.update_of_ne hb, Segments.val]

/-- A new segment is put behind the others when all slots are used. -/
theorem Holds.grow_eq (hs : Holds segs sl nodes l) (hfull : l.length % SEGLIST_OBJS_PER_SEG = 0)
    (ha : a ∉ nodes) :
  ∃ segs' sl', sl.grow segs (some a) = some (.ok (segs', sl')) ∧
    Spread segs' sl' (nodes ++ [a]) l ∧ Segments.Within (nodes ++ [a]) segs segs'
  := by
  set segs₁ : Segments α := Function.update segs a { sVal := fun _ => none, next := none }
    with hsegs₁
  have hlink₁ : segs₁.link = Function.update segs.link a none := by
    funext b
    by_cases hb : b = a
    · rw [Segments.link, hsegs₁, hb, Function.update_self, Function.update_self]
    · rw [Segments.link, hsegs₁, Function.update_of_ne hb, Function.update_of_ne hb,
        Segments.link]
  have hval₁ (b : ℕ) (hb : b ≠ a) : segs₁.val b = segs.val b := by
    rw [Segments.val, hsegs₁, Function.update_of_ne hb, Segments.val]
  have hwithin₁ : Segments.Within (nodes ++ [a]) segs segs₁ := by
    intro b hb
    apply Function.update_of_ne
    rintro rfl
    simp at hb
  have hlength : l.length = SEGLIST_OBJS_PER_SEG * nodes.length := by
    rw [hs.size]
    simp only [SEGLIST_OBJS_PER_SEG] at hfull ⊢
    omega
  have hnew₁ : segs₁.val a = fun _ => none := by
    rw [Segments.val, hsegs₁, Function.update_self]
  have hold₁ (b : ℕ) (hb : b ∈ nodes) : segs₁.val b = segs.val b :=
    hval₁ b fun heq => ha (heq ▸ hb)
  have hitem (k : ℕ) (hk : k < SEGLIST_OBJS_PER_SEG * (nodes ++ [a]).length) :
      segs₁.item (nodes ++ [a]) k = l[k]? :=
    cell_concat hlength (hlength ▸ hs.item) hold₁ hnew₁ hk
  rw [grow, hs.length, if_pos hfull]
  dsimp only
  rcases List.eq_nil_or_concat nodes with rfl | ⟨init, q, rfl⟩
  · have hroot : sl.slRootseg = none := hs.chain
    rw [hroot]
    refine ⟨segs₁, _, rfl, ⟨rfl, ⟨rfl, ?_⟩, rfl, hitem⟩, hwithin₁⟩
    rw [hlink₁, Function.update_self]
    rfl
  · rw [List.concat_eq_append] at *
    have hlast : sl.slLastseg = some q := by rw [hs.last, List.getLast?_concat]
    have hroot : sl.slRootseg ≠ none := by
      intro hroot
      have := hs.chain
      rw [hroot, IsChain.nil_iff] at this
      simp at this
    obtain ⟨r, hr⟩ := Option.ne_none_iff_exists'.mp hroot
    have hchain := isChain_concat hs.chain.nodup ha hs.chain
    rw [hr] at hchain
    rw [hr, hlast]
    refine ⟨segs₁.setNext q (some a), _, rfl, ⟨rfl, ?_, ?_, ?_⟩, ?_⟩
    · rw [link_setNext, hlink₁]
      exact hchain
    · exact List.getLast?_concat.symm
    · intro k hk
      rw [Segments.item, val_setNext]
      exact hitem k hk
    · apply hwithin₁.trans
      intro b hb
      apply Function.update_of_ne
      rintro rfl
      simp at hb

/-- An object is put at a position of segments that have a slot for it. -/
theorem Spread.insert (hs : Spread segs sl nodes l) (hi : i ≤ l.length)
    (hsize : nodes.length = (l.length + 8) / SEGLIST_OBJS_PER_SEG) (x : α) :
  ∃ segs' a, segs.walk (i / SEGLIST_OBJS_PER_SEG) sl.slRootseg = some a ∧
    segs.ripple (sl.slLength + 1) a (i % SEGLIST_OBJS_PER_SEG) (some x) = some segs' ∧
      Holds segs' { sl with slLength := sl.slLength + 1 } nodes (l.insertIdx i x) ∧
        Segments.Within nodes segs segs'
  := by
  have hroom : l.length < SEGLIST_OBJS_PER_SEG * nodes.length := by
    simp only [SEGLIST_OBJS_PER_SEG] at *
    omega
  obtain ⟨a, ha⟩ := Segments.exists_node nodes (i := i) (by omega)
  have hdrop : (l.drop i).length = l.length - i := List.length_drop
  have hfuel : (l.drop i).length < sl.slLength + 1 := by
    rw [hdrop, hs.length]
    omega
  obtain ⟨segs', heq, hlink, hwithin, hfront, hback⟩ := Segments.ripple_eq (s := l.drop i)
    (x := x) hs.chain.nodup hs.chain ha hfuel (by omega) (by
      intro k hik hk
      rw [hs.item k hk, List.getElem?_drop, Nat.add_sub_cancel' hik])
  refine ⟨segs', a, by rw [hs.walk_eq, ha], heq, ⟨⟨?_, ?_, hs.last, ?_⟩, ?_⟩, hwithin⟩
  · rw [hs.length, List.length_insertIdx_of_le_length hi]
  · rw [hlink]
    exact hs.chain
  · intro k hk
    rw [List.getElem?_insertIdx]
    by_cases hki : k < i
    · rw [if_pos hki, hfront k hki, hs.item k hk]
    · rw [if_neg hki, hback k (by omega) hk]
      by_cases hkeq : k = i
      · rw [if_pos hkeq, if_pos (by omega), hkeq, Nat.sub_self]
        rfl
      · rw [if_neg hkeq, List.getElem?_cons, if_neg (by omega), List.getElem?_drop]
        congr 1
        omega
  · rw [hsize, List.length_insertIdx_of_le_length hi]

/-- The nodes when an object is inserted. -/
def grown (nodes : List ℕ) (l : List α) (chunk : Option ℕ) : List ℕ :=
  if l.length % SEGLIST_OBJS_PER_SEG = 0 then nodes ++ chunk.toList else nodes

/-- There is memory for a segment when one is needed. -/
def Served (l : List α) (chunk : Option ℕ) : Prop :=
  l.length % SEGLIST_OBJS_PER_SEG = 0 → chunk ≠ none

/-- An object is inserted, if there is memory for a segment when one is needed. -/
theorem Holds.insertItem_eq (hs : Holds segs sl nodes l) (hi : i ≤ l.length) {chunk : Option ℕ}
    (hserved : Served l chunk) (hfresh : ∀ a ∈ chunk, a ∉ nodes) (x : α) :
  ∃ segs' sl', sl.insertItem segs chunk x i = some (segs', sl', .ok) ∧
    Holds segs' sl' (grown nodes l chunk) (l.insertIdx i x) ∧
      Segments.Within (grown nodes l chunk) segs segs'
  := by
  have hsize := hs.size
  rw [grown]
  by_cases hfull : l.length % SEGLIST_OBJS_PER_SEG = 0
  · obtain ⟨a, rfl⟩ := Option.ne_none_iff_exists'.mp (hserved hfull)
    obtain ⟨segs₁, sl₁, hgrow, hs₁, hwithin₁⟩ := hs.grow_eq hfull (hfresh a rfl)
    obtain ⟨segs', b, hwalk, hripple, hs', hwithin⟩ := hs₁.insert hi (by
      rw [List.length_append, List.length_singleton]
      simp only [SEGLIST_OBJS_PER_SEG] at *
      omega) x
    rw [if_pos hfull]
    refine ⟨segs', _, ?_, hs', hwithin₁.trans hwithin⟩
    rw [insertItem, hgrow]
    simp only [Option.bind_eq_bind, Option.bind_some, hwalk, hripple]
  · rw [if_neg hfull]
    have hgrow : sl.grow segs chunk = some (.ok (segs, sl)) := by
      unfold grow
      rw [hs.length, if_neg hfull]
    obtain ⟨segs', b, hwalk, hripple, hs', hwithin⟩ := hs.toSpread.insert hi (by
      simp only [SEGLIST_OBJS_PER_SEG] at *
      omega) x
    refine ⟨segs', _, ?_, hs', hwithin⟩
    rw [insertItem, hgrow]
    simp only [Option.bind_eq_bind, Option.bind_some, hwalk, hripple]

/-- Without memory for a segment that is needed, nothing changes. -/
theorem Holds.insertItem_error (hs : Holds segs sl nodes l)
    (hfull : l.length % SEGLIST_OBJS_PER_SEG = 0) (x : α) :
  sl.insertItem segs none x i = some (segs, sl, .exMem)
  := by
  rw [insertItem, grow, hs.length, if_pos hfull]
  rfl

/-! ### Removal -/

/-- The segments when the items behind an index moved down: the slot behind the last item still has
what was there. -/
theorem Holds.shift_eq (hs : Holds segs sl nodes l) (hi : i < l.length) :
  ∃ segs' a b, segs.walk (i / SEGLIST_OBJS_PER_SEG) sl.slRootseg = some a ∧
    segs.shift (sl.slLength - 1 - i) i a = some (segs', b) ∧
      nodes[(l.length - 1) / SEGLIST_OBJS_PER_SEG]? = some b ∧ segs'.link = segs.link ∧
        Segments.Within nodes segs segs' ∧
          (∀ k < l.length - 1, segs'.item nodes k = (l.eraseIdx i)[k]?) ∧
            ∀ k, l.length ≤ k → k < SEGLIST_OBJS_PER_SEG * nodes.length → segs'.item nodes k = none
  := by
  have hroom := hs.room
  obtain ⟨a, ha⟩ := Segments.exists_node nodes (i := i) (by omega)
  obtain ⟨segs', b, heq, hb, hlink, hwithin, hitem⟩ := Segments.shift_eq
    (n := sl.slLength - 1 - i) hs.chain.nodup hs.chain ha (by rw [hs.length]; omega)
  have hend : i + (sl.slLength - 1 - i) = l.length - 1 := by
    rw [hs.length]
    omega
  rw [hend] at hb
  refine ⟨segs', a, b, by rw [hs.walk_eq, ha], heq, hb, hlink, hwithin, ?_, ?_⟩
  · intro k hk
    rw [hitem, hend, List.getElem?_eraseIdx]
    by_cases hki : k < i
    · rw [if_neg (by omega), if_pos hki, hs.item k (by omega)]
    · rw [if_pos ⟨by omega, hk⟩, if_neg hki, hs.item (k + 1) (by omega)]
  · intro k hk hkroom
    rw [hitem, hend, if_neg (by omega), hs.item k hkroom]
    exact List.getElem?_eq_none hk

/-- The segments behind one are cut off. -/
theorem holds_cut {root : Option ℕ} {m c : ℕ} (hnodup : nodes.Nodup)
    (hchain : IsChain segs.link root nodes) (hc : nodes[m]? = some c)
    (hlength : l.length = SEGLIST_OBJS_PER_SEG * (m + 1))
    (hitem : ∀ k < l.length, segs.item nodes k = l[k]?) :
  Holds (segs.setNext c none) ⟨l.length, root, some c⟩ (nodes.take (m + 1)) l
  := by
  have hm : m < nodes.length := (List.getElem?_eq_some_iff.mp hc).1
  have htake : (nodes.take (m + 1)).length = m + 1 := by
    rw [List.length_take]
    omega
  refine ⟨⟨rfl, ?_, ?_, ?_⟩, ?_⟩
  · rw [link_setNext]
    exact isChain_take hnodup hchain hc
  · rw [List.take_add_one, hc]
    exact List.getLast?_concat.symm
  · intro k hk
    have hlt : k < SEGLIST_OBJS_PER_SEG * (m + 1) := htake ▸ hk
    rw [Segments.item, val_setNext, ← hitem k (hlength ▸ hlt), Segments.item]
    conv_rhs => rw [← List.take_append_drop (m + 1) nodes]
    rw [cell_append hk]
  · rw [htake, hlength]
    simp only [SEGLIST_OBJS_PER_SEG]
    omega

/-- The item at an index is removed. -/
theorem Holds.removeItem_eq (hs : Holds segs sl nodes l) (hi : i < l.length) :
  ∃ segs' sl' nodes', sl.removeItem segs i
      = some (segs', sl', if l.length = 1 then nodes else []) ∧
    Holds segs' sl' nodes' (l.eraseIdx i) ∧ Segments.Within nodes segs segs' ∧ nodes' ⊆ nodes
  := by
  have hsize := hs.size
  have hroom := hs.room
  have hlength : (l.eraseIdx i).length = l.length - 1 := List.length_eraseIdx_of_lt hi
  obtain ⟨segs₁, a, b, hwalk, hshift, hb, hlink, hwithin, hfront, hback⟩ := hs.shift_eq hi
  have hchain₁ : IsChain segs₁.link sl.slRootseg nodes := by
    rw [hlink]
    exact hs.chain
  have hwalk₁ (n : ℕ) : segs₁.walk n sl.slRootseg = nodes[n]? := Unrolled.walk_eq hchain₁
  rw [removeItem, hwalk]
  simp only [Option.bind_eq_bind, Option.bind_some, hshift]
  rw [hs.length]
  by_cases hempty : (l.length - 1) % SEGLIST_OBJS_PER_SEG = 0
  · rw [if_pos hempty, hwalk₁]
    obtain ⟨c, hc⟩ := Segments.exists_node nodes (i := l.length - 1 - 1) (by omega)
    have hnext := next_eq hchain₁ hc
    rw [hc, Option.bind_some, hnext]
    by_cases hone : l.length = 1
    · -- the only segment is freed
      have hnodes : nodes.length = 1 := by
        simp only [SEGLIST_OBJS_PER_SEG, hone] at hsize
        omega
      obtain ⟨d, rfl⟩ := List.length_eq_one_iff.mp hnodes
      have hnil : l.eraseIdx i = [] := by
        rw [← List.length_eq_zero_iff]
        omega
      have hdc : d = c := by simpa [hone, SEGLIST_OBJS_PER_SEG] using hc
      rw [if_pos (by simp [hone, SEGLIST_OBJS_PER_SEG]), if_pos hone, hnil, hdc]
      refine ⟨segs₁, _, [], rfl, ⟨⟨?_, rfl, rfl, by simp⟩, by simp [SEGLIST_OBJS_PER_SEG]⟩,
        hdc ▸ hwithin, by simp⟩
      rw [hone]
      rfl
    · -- the last segment is cut off
      obtain ⟨m, hm⟩ : ∃ m, l.length - 1 = 8 * (m + 1) :=
        ⟨(l.length - 1) / 8 - 1, by simp only [SEGLIST_OBJS_PER_SEG] at hempty; omega⟩
      have hnodes : nodes.length = m + 2 := by
        simp only [SEGLIST_OBJS_PER_SEG] at hsize
        omega
      have hdiv : (l.length - 1 - 1) / SEGLIST_OBJS_PER_SEG = m := by
        simp only [SEGLIST_OBJS_PER_SEG]
        omega
      rw [hdiv] at hc ⊢
      have hsome : nodes[m + 1]? ≠ none := by
        rw [ne_eq, List.getElem?_eq_none_iff]
        omega
      rw [if_neg hsome, if_neg hone]
      have hcut := holds_cut hs.chain.nodup hchain₁ hc (hlength.trans hm)
        (fun k hk => hfront k (by omega))
      rw [hlength] at hcut
      refine ⟨segs₁.setNext c none, _, nodes.take (m + 1), rfl, hcut, ?_, List.take_subset _ _⟩
      apply hwithin.trans
      intro d hd
      apply Function.update_of_ne
      rintro rfl
      exact hd (List.mem_of_getElem? hc)
  · -- the slot behind the last item is cleared
    have hone : l.length ≠ 1 := by
      intro hone
      apply hempty
      rw [hone]
      rfl
    have hput := Segments.put_setVal segs₁ (v := none) hs.chain.nodup hb
    rw [if_neg hempty, if_neg hone]
    refine ⟨_, _, nodes, rfl, ⟨⟨hlength.symm, ?_, hs.last, ?_⟩, ?_⟩, hwithin.trans hput.within,
      fun _ hd => hd⟩
    · rw [hput.link]
      exact hchain₁
    · intro k hk
      rw [hput.item]
      by_cases hlast : k = l.length - 1
      · rw [if_pos hlast, hlast, List.getElem?_eq_none (by omega)]
      · rw [if_neg hlast]
        by_cases hk' : k < l.length - 1
        · exact hfront k hk'
        · rw [hback k (by omega) hk, List.getElem?_eq_none (by omega)]
    · rw [hsize, hlength]
      simp only [SEGLIST_OBJS_PER_SEG] at *
      omega

end Seglist

end Etaos.Vm
