import Etaos.Vm.PmList

/-!
# A list object is a list

The functions of a list object do to its items what Python does to a list.  A request for memory
that fails leaves the items as they are.
-/

namespace Etaos.Vm

open Etaos.Vm.Segments Seglist

variable {α : Type} {segs segs' : Segments α} {pl pl' : PmList} {nodes nodes' : List ℕ}
  {l l' : List α} {i j : ℤ} {x : α} {c : Chunks}

/-! ### Lists of Python -/

namespace PyList

/-- The index of an item: it counts from the end when it is negative. -/
def index (l : List α) (i : ℤ) : Option ℕ :=
  if 0 ≤ i ∧ i < l.length then some i.toNat
  else if i < 0 ∧ -(l.length : ℤ) ≤ i then some (i + l.length).toNat
  else none

/-- The place where an item is inserted: an index out of bounds is the nearest end. -/
def place (l : List α) (i : ℤ) : ℕ :=
  if 0 ≤ i then min i.toNat l.length else (i + l.length).toNat

/-- A bound of a slice is an index or the nearest end. -/
def bound (l : List α) (i : ℤ) : ℕ := place l i

theorem index_lt {n : ℕ} (h : index l i = some n) : n < l.length := by
  rw [index] at h
  split at h
  · cases h
    omega
  · split at h
    · cases h
      omega
    · cases h

theorem place_le (l : List α) (i : ℤ) : place l i ≤ l.length := by
  rw [place]
  split <;> omega

end PyList

namespace PmList

/-- The list object has the items of `l`, in the segments at `nodes`. -/
structure Holds (segs : Segments α) (pl : PmList) (nodes : List ℕ) (l : List α) : Prop where
  length : pl.length = l.length
  nil : l = [] → nodes = []
  val : l ≠ [] → ∃ sl, pl.val = some sl ∧ sl.Holds segs nodes l

theorem holds_new (segs : Segments α) : Holds segs new [] [] :=
  ⟨rfl, fun _ => rfl, fun h => absurd rfl h⟩

namespace Holds

variable (hs : Holds segs pl nodes l)

include hs

theorem congr (h : ∀ a ∈ nodes, segs' a = segs a) : Holds segs' pl nodes l := by
  refine ⟨hs.length, hs.nil, ?_⟩
  intro hne
  obtain ⟨sl, hval, hsl⟩ := hs.val hne
  exact ⟨sl, hval, hsl.congr h⟩

theorem adjust_eq (i : ℤ) : pl.adjust i = PyList.index l i := by
  have hlength := hs.length
  simp only [adjust, PyList.index]
  grind

/-- A list with an item has a seglist. -/
theorem seglist {n : ℕ} (hn : n < l.length) :
  ∃ sl, pl.val = some sl ∧ sl.Holds segs nodes l
  := hs.val (List.ne_nil_of_length_pos (by omega))

theorem getItem_eq (i : ℤ) :
  pl.getItem segs i
    = some (match PyList.index l i with
      | none => .error .exIndx
      | some n => .ok l[n]?)
  := by
  rw [getItem, hs.adjust_eq]
  cases hn : PyList.index l i with
  | none => rfl
  | some n =>
      have hlt := PyList.index_lt hn
      obtain ⟨sl, hval, hsl⟩ := hs.seglist hlt
      simp only [hval, Option.bind_some, hsl.getItem_eq hlt, Option.map_some,
        List.getElem?_eq_getElem hlt]

/-- An item is replaced. -/
theorem setItem_eq (i : ℤ) (x : α) :
  ∃ segs', pl.setItem segs i x
      = some (segs', pl, if PyList.index l i = none then .exIndx else .ok) ∧
    Holds segs' pl nodes (match PyList.index l i with | none => l | some n => l.set n x) ∧
      Within nodes segs segs'
  := by
  rw [setItem, hs.adjust_eq]
  cases hn : PyList.index l i with
  | none => exact ⟨segs, rfl, hs, Within.refl nodes segs⟩
  | some n =>
      have hlt := PyList.index_lt hn
      obtain ⟨sl, hval, hsl⟩ := hs.seglist hlt
      obtain ⟨segs', hset, hsl', hwithin⟩ := hsl.setItem_eq hlt x
      refine ⟨segs', ?_, ⟨?_, ?_, ?_⟩, hwithin⟩
      · simp only [hval, Option.bind_some, hset]
        rfl
      · rw [List.length_set]
        exact hs.length
      · intro hnil
        rw [List.set_eq_nil_iff] at hnil
        rw [hnil] at hlt
        cases hlt
      · exact fun _ => ⟨sl, hval, hsl'⟩

/-- The segments when an item is inserted. -/
theorem insertAt_eq {n : ℕ} (hn : n ≤ l.length) (hfresh : ∀ a ∈ c.segment, a ∉ nodes) (x : α) :
  (l = [] → c.seglist = true) ∧ Served l c.segment ∧
      (∃ segs' pl', pl.insertAt segs c n x = some (segs', pl', .ok) ∧
        Holds segs' pl' (grown nodes l c.segment) (l.insertIdx n x) ∧
          Within (grown nodes l c.segment) segs segs') ∨
    ¬ ((l = [] → c.seglist = true) ∧ Served l c.segment) ∧
      ∃ pl', pl.insertAt segs c n x = some (segs, pl', .exMem) ∧ Holds segs pl' nodes l
  := by
  have hempty : pl.length = 0 ↔ l = [] := by rw [hs.length, List.length_eq_zero_iff]
  by_cases hmade : l = [] → c.seglist = true
  · have hfail : ¬ (pl.length = 0 ∧ c.seglist = false) := by
      rw [hempty]
      rintro ⟨hl, hseglist⟩
      cases (hmade hl).symm.trans hseglist
    obtain ⟨sl, hval, hsl⟩ : ∃ sl, (if pl.length = 0 then some Seglist.new else pl.val) = some sl ∧
        sl.Holds segs nodes l := by
      by_cases hl : l = []
      · rw [if_pos (hempty.mpr hl), hs.nil hl, hl]
        exact ⟨_, rfl, Seglist.holds_new segs⟩
      · rw [if_neg fun hzero => hl (hempty.mp hzero)]
        exact hs.val hl
    by_cases hserved : Served l c.segment
    · left
      obtain ⟨segs', sl', hinsert, hsl', hwithin⟩ := hsl.insertItem_eq hn hserved hfresh x
      have hne : l.insertIdx n x ≠ [] := by
        apply List.ne_nil_of_length_pos
        rw [List.length_insertIdx_of_le_length hn]
        omega
      refine ⟨hmade, hserved, segs', { length := pl.length + 1, val := some sl' }, ?_, ⟨?_, ?_, ?_⟩,
        hwithin⟩
      · rw [insertAt, insertBy, if_neg hfail]
        simp only [hval, Option.bind_some, hinsert, Option.map_some]
        rfl
      · rw [List.length_insertIdx_of_le_length hn, hs.length]
      · exact fun hnil => absurd hnil hne
      · exact fun _ => ⟨sl', rfl, hsl'⟩
    · right
      rw [Served, Classical.not_imp, not_not] at hserved
      refine ⟨fun h => h.2 hserved.1 hserved.2, { pl with val := some sl }, ?_,
        ⟨hs.length, hs.nil, fun _ => ⟨sl, rfl, hsl⟩⟩⟩
      rw [insertAt, insertBy, if_neg hfail, hserved.2]
      simp only [hval, Option.bind_some, hsl.insertItem_error hserved.1, Option.map_some]
      rfl
  · right
    rw [Classical.not_imp, Bool.not_eq_true] at hmade
    refine ⟨fun h => ?_, { pl with val := none }, ?_, ⟨hs.length, hs.nil, ?_⟩⟩
    · cases (h.1 hmade.1).symm.trans hmade.2
    · rw [insertAt, insertBy, if_pos ⟨hempty.mpr hmade.1, hmade.2⟩]
    · exact fun hne => absurd hmade.1 hne

/-- To append an item is to insert it behind the last one. -/
theorem append_eq (c : Chunks) (x : α) : pl.append segs c x = pl.insertAt segs c l.length x := by
  rw [append, insertAt, insertBy, insertBy]
  by_cases hl : l = []
  · subst hl
    simp only [hs.length, List.length_nil, if_true, Option.bind_some]
    rfl
  · obtain ⟨sl, hval, hsl⟩ := hs.val hl
    have hzero : pl.length ≠ 0 := by
      rw [hs.length]
      exact fun h => hl (List.length_eq_zero_iff.mp h)
    simp only [if_neg hzero, hval, Option.bind_some, Seglist.appendItem, hsl.length]

theorem insert_place (i : ℤ) : pl.insert segs c i x = pl.insertAt segs c (PyList.place l i) x := by
  have hlength := hs.length
  have hplace : (let index := if i < 0 then i + pl.length else i
      let index := if index < 0 then 0 else index
      let index := if (pl.length : ℤ) < index then (pl.length : ℤ) else index
      index.toNat) = PyList.place l i := by
    simp only [PyList.place]
    grind
  rw [insert]
  simp only at hplace ⊢
  rw [hplace]

/-- An item is removed. -/
theorem removeAt_eq {n : ℕ} (hn : n < l.length) :
  ∃ segs' pl' nodes', pl.removeAt segs n = some (segs', pl', .ok) ∧
    Holds segs' pl' nodes' (l.eraseIdx n) ∧ Within nodes segs segs' ∧ nodes' ⊆ nodes
  := by
  obtain ⟨sl, hval, hsl⟩ := hs.seglist hn
  obtain ⟨segs', sl', nodes', hremove, hsl', hwithin, hsub⟩ := hsl.removeItem_eq hn
  have hlength : (l.eraseIdx n).length = pl.length - 1 := by
    rw [List.length_eraseIdx_of_lt hn, hs.length]
  refine ⟨segs', { length := pl.length - 1, val := if pl.length - 1 = 0 then none else some sl' },
    nodes', ?_, ⟨hlength.symm, ?_, ?_⟩, hwithin, hsub⟩
  · simp only [removeAt, hval, Option.bind_some, hremove, Option.map_some]
  · intro hnil
    rw [hnil] at hsl'
    exact hsl'.nodes_nil
  · intro hne
    have hpos := List.length_pos_iff.mpr hne
    exact ⟨sl', if_neg (by omega), hsl'⟩

/-- The first item that is equal. -/
theorem index_eq (same : α → α → Bool) (x : α) :
  pl.index segs same x
    = some (match l.findIdx? (same · x) with
      | none => .error .exVal
      | some n => .ok n)
  := by
  rw [index, hs.length]
  by_cases hl : l = []
  · rw [hl]
    rfl
  · obtain ⟨sl, hval, hsl⟩ := hs.val hl
    have hloop (n k : ℕ) (hk : k + n = l.length) :
        indexFrom segs same x sl n k
          = some (match (l.drop k).findIdx? (same · x) with
            | none => .error .exVal
            | some j => .ok (j + k)) := by
      induction n generalizing k with
      | zero =>
          rw [List.drop_eq_nil_of_le (by omega)]
          rfl
      | succ n ih =>
          have hlt : k < l.length := by omega
          rw [indexFrom, hsl.getItem_eq hlt, List.drop_eq_getElem_cons hlt, List.findIdx?_cons]
          simp only [Option.bind_eq_bind, Option.bind_some]
          by_cases heq : same l[k] x
          · rw [if_pos heq, if_pos heq]
            simp
          · rw [if_neg heq, if_neg heq, ih (k + 1) (by omega)]
            cases (l.drop (k + 1)).findIdx? (same · x) with
            | none => rfl
            | some j =>
                simp only [Option.map_some]
                congr 2
                omega
    have hne : l.length ≠ 0 := by simpa using hl
    rw [if_neg hne, hval, Option.bind_some, hsl.length, hloop l.length 0 (by omega)]
    rfl

end Holds

end PmList

/-! ### Runs -/

/-- A call of a function of list objects.  The answers of `obj_compare` are those at the call. -/
inductive ListOp (α : Type)
  | append (chunks : Chunks) (pobj : α)
  | insert (chunks : Chunks) (index : ℤ) (pobj : α)
  | setItem (index : ℤ) (pobj : α)
  | delItem (index : ℤ)
  | remove (same : α → α → Bool) (item : α)
  | clear

namespace ListOp

/-- The segment that a call may get. -/
def segment : ListOp α → Option ℕ
  | append chunks _ | insert chunks _ _ => chunks.segment
  | _ => none

/-- A call. -/
def exec (segs : Segments α) (pl : PmList) : ListOp α → Listed α
  | append chunks pobj => pl.append segs chunks pobj
  | insert chunks index pobj => pl.insert segs chunks index pobj
  | setItem index pobj => pl.setItem segs index pobj
  | delItem index => pl.delItem segs index
  | remove same item => pl.remove segs same item
  | clear => some (segs, PmList.clear, .ok)

/-- There is memory for an item that is inserted. -/
def Supplied (l : List α) (chunks : Chunks) : Prop :=
  (l = [] → chunks.seglist = true) ∧
    (l.length % SEGLIST_OBJS_PER_SEG = 0 → chunks.segment ≠ none)

instance (l : List α) (chunks : Chunks) : Decidable (Supplied l chunks) :=
  inferInstanceAs (Decidable ((l = [] → _) ∧ (_ → _)))

/-- What Python does to a list. -/
def apply (l : List α) : ListOp α → List α × PmReturn
  | append chunks x => if Supplied l chunks then (l ++ [x], .ok) else (l, .exMem)
  | insert chunks i x =>
      if Supplied l chunks then (l.insertIdx (PyList.place l i) x, .ok) else (l, .exMem)
  | setItem i x =>
      match PyList.index l i with
      | none => (l, .exIndx)
      | some n => (l.set n x, .ok)
  | delItem i =>
      match PyList.index l i with
      | none => (l, .exIndx)
      | some n => (l.eraseIdx n, .ok)
  | remove same x =>
      match l.findIdx? (same · x) with
      | none => (l, .exVal)
      | some n => (l.eraseIdx n, .ok)
  | clear => ([], .ok)

/-- Only the segment that a call got is new. -/
structure Performed (segs : Segments α) (nodes : List ℕ) (chunk : Option ℕ) (l : List α)
    (r : PmReturn) (result : Listed α) : Prop where
  done : ∃ segs' pl' nodes', result = some (segs', pl', r) ∧ pl'.Holds segs' nodes' l ∧
    nodes' ⊆ nodes ++ chunk.toList ∧ Within (nodes ++ chunk.toList) segs segs'

theorem grown_subset (nodes : List ℕ) (l : List α) (chunk : Option ℕ) :
  grown nodes l chunk ⊆ nodes ++ chunk.toList
  := by
  rw [grown]
  split
  · exact fun _ h => h
  · exact List.subset_append_left _ _

theorem performed_insertAt (hs : pl.Holds segs nodes l) {n : ℕ} (hn : n ≤ l.length)
    (hfresh : ∀ a ∈ c.segment, a ∉ nodes) (x : α) :
  Performed segs nodes c.segment (if Supplied l c then l.insertIdx n x else l)
    (if Supplied l c then .ok else .exMem) (pl.insertAt segs c n x)
  := by
  rcases hs.insertAt_eq hn hfresh x with
    ⟨hmade, hserved, segs', pl', heq, hs', hwithin⟩ | ⟨hfail, pl', heq, hs'⟩
  · have hsupplied : Supplied l c := ⟨hmade, hserved⟩
    rw [if_pos hsupplied, if_pos hsupplied]
    have hsub := grown_subset nodes l c.segment
    exact ⟨segs', pl', _, heq, hs', hsub, Within.mono hwithin hsub⟩
  · have hsupplied : ¬ Supplied l c := hfail
    rw [if_neg hsupplied, if_neg hsupplied]
    exact ⟨segs, pl', nodes, heq, hs', List.subset_append_left _ _, Within.refl _ segs⟩

theorem performed_removeAt (hs : pl.Holds segs nodes l) {n : ℕ} (hn : n < l.length) :
  Performed segs nodes none (l.eraseIdx n) .ok (pl.removeAt segs n)
  := by
  obtain ⟨segs', pl', nodes', heq, hs', hwithin, hsub⟩ := hs.removeAt_eq hn
  refine ⟨segs', pl', nodes', heq, hs', ?_, ?_⟩
  · simpa using hsub
  · simpa using hwithin

theorem performed_same (hs : pl.Holds segs nodes l) (r : PmReturn) :
  Performed segs nodes none l r (some (segs, pl, r))
  := ⟨segs, pl, nodes, rfl, hs, List.subset_append_left _ _, Within.refl _ segs⟩

/-- A call does to the items what Python does to a list. -/
theorem performed_exec (hs : pl.Holds segs nodes l) (op : ListOp α)
    (hfresh : ∀ a ∈ op.segment, a ∉ nodes) :
  Performed segs nodes op.segment (op.apply l).1 (op.apply l).2 (op.exec segs pl)
  := by
  cases op with
  | append c x =>
      have h := performed_insertAt (n := l.length) hs le_rfl hfresh x
      rw [List.insertIdx_length_self] at h
      rw [exec, hs.append_eq, apply]
      by_cases hsupplied : Supplied l c
      · rw [if_pos hsupplied] at h ⊢
        rwa [if_pos hsupplied] at h
      · rw [if_neg hsupplied] at h ⊢
        rwa [if_neg hsupplied] at h
  | insert c i x =>
      have h := performed_insertAt hs (PyList.place_le l i) hfresh x
      rw [exec, hs.insert_place, apply]
      by_cases hsupplied : Supplied l c
      · rw [if_pos hsupplied] at h ⊢
        rwa [if_pos hsupplied] at h
      · rw [if_neg hsupplied] at h ⊢
        rwa [if_neg hsupplied] at h
  | setItem i x =>
      obtain ⟨segs', heq, hs', hwithin⟩ := hs.setItem_eq i x
      have hwithin' := Within.mono hwithin (List.subset_append_left nodes (none : Option ℕ).toList)
      rw [exec, heq, apply]
      cases hn : PyList.index l i with
      | none =>
          rw [hn] at hs'
          exact ⟨segs', pl, nodes, rfl, hs', List.subset_append_left _ _, hwithin'⟩
      | some n =>
          rw [hn] at hs'
          exact ⟨segs', pl, nodes, rfl, hs', List.subset_append_left _ _, hwithin'⟩
  | delItem i =>
      rw [exec, PmList.delItem, hs.adjust_eq, apply]
      cases hn : PyList.index l i with
      | none => exact performed_same hs .exIndx
      | some n => exact performed_removeAt hs (PyList.index_lt hn)
  | remove same x =>
      rw [exec, PmList.remove, hs.index_eq, Option.bind_some, apply]
      cases hn : l.findIdx? (same · x) with
      | none => exact performed_same hs .exVal
      | some n => exact performed_removeAt hs (List.findIdx?_eq_some_iff_getElem.mp hn).1
  | clear =>
      refine ⟨segs, PmList.clear, [], rfl, PmList.holds_new segs, List.nil_subset _,
        Within.refl _ segs⟩

/-- Some calls in order, and what they return. -/
def run : List (ListOp α) → Segments α → PmList →
    Option (Segments α × PmList × List PmReturn)
  | [], segs, pl => some (segs, pl, [])
  | op :: ops, segs, pl => do
      let (segs, pl, r) ← op.exec segs pl
      let (segs, pl, rs) ← run ops segs pl
      some (segs, pl, r :: rs)

/-- What Python does in order. -/
def applyAll : List (ListOp α) → List α → List α × List PmReturn
  | [], l => (l, [])
  | op :: ops, l =>
      let (l, r) := op.apply l
      let (l, rs) := applyAll ops l
      (l, r :: rs)

/-- The segments of a list object. -/
def nodesOf (segs : Segments α) (pl : PmList) : List ℕ :=
  if pl.length = 0 then []
  else ((pl.val.bind fun sl => segs.clear (sl.slLength + 1) sl.slRootseg).getD [])

theorem nodesOf_eq (hs : pl.Holds segs nodes l) : nodesOf segs pl = nodes := by
  rw [nodesOf]
  by_cases hl : l = []
  · rw [if_pos (by rw [hs.length, hl]; rfl), hs.nil hl]
  · obtain ⟨sl, hval, hsl⟩ := hs.val hl
    have hsize := hsl.size
    rw [if_neg (by rw [hs.length]; simpa using hl), hval, Option.bind_some,
      Segments.clear_eq hsl.chain]
    · rfl
    · rw [hsl.length]
      simp only [SEGLIST_OBJS_PER_SEG] at hsize
      omega

/-- No call gets a segment that the list has already. -/
def Fresh : List (ListOp α) → Segments α → PmList → Prop
  | [], _, _ => True
  | op :: ops, segs, pl => (∀ a ∈ op.segment, a ∉ nodesOf segs pl) ∧
      ∀ segs' pl' r, op.exec segs pl = some (segs', pl', r) → Fresh ops segs' pl'

/-- A run does to the items what Python does to a list. -/
theorem run_eq {ops : List (ListOp α)} (hs : pl.Holds segs nodes l)
    (hfresh : Fresh ops segs pl) :
  ∃ segs' pl' nodes', run ops segs pl = some (segs', pl', (applyAll ops l).2) ∧
    pl'.Holds segs' nodes' (applyAll ops l).1
  := by
  induction ops generalizing segs pl nodes l with
  | nil => exact ⟨segs, pl, nodes, rfl, hs⟩
  | cons op ops ih =>
      obtain ⟨hnew, hrest⟩ := hfresh
      rw [nodesOf_eq hs] at hnew
      obtain ⟨segs₁, pl₁, nodes₁, heq, hs₁, -, -⟩ := (performed_exec hs op hnew).done
      obtain ⟨segs', pl', nodes', heq', hs'⟩ := ih hs₁ (hrest segs₁ pl₁ _ heq)
      refine ⟨segs', pl', nodes', ?_, hs'⟩
      rw [run, heq]
      simp only [Option.bind_eq_bind, Option.bind_some, heq']
      rfl

/-- In every run of a new list object every call returns what Python says, and at the end so does
every index. -/
theorem run_getItem (ops : List (ListOp α)) (segs : Segments α)
    (hfresh : Fresh ops segs PmList.new) :
  ∃ segs' pl', run ops segs PmList.new = some (segs', pl', (applyAll ops []).2) ∧
    pl'.length = (applyAll ops []).1.length ∧
      ∀ i : ℤ, pl'.getItem segs' i
        = some (match PyList.index (applyAll ops []).1 i with
          | none => .error .exIndx
          | some n => .ok (applyAll ops []).1[n]?)
  := by
  obtain ⟨segs', pl', nodes', heq, hs'⟩ := run_eq (PmList.holds_new segs) hfresh
  exact ⟨segs', pl', heq, hs'.length, hs'.getItem_eq⟩

/-- Two items come in, and the first one is removed. -/
theorem run_getItem_two :
  ∃ segs' pl', run [.append ⟨true, some 8⟩ 5, .insert ⟨true, none⟩ (-7) 6, .remove (· == ·) 5]
      (fun _ => ⟨fun _ => none, none⟩) PmList.new = some (segs', pl', [.ok, .ok, .ok]) ∧
    pl'.getItem segs' (-1) = some (.ok (some 6))
  := by
  obtain ⟨segs', pl', heq, -, hget⟩ := run_getItem (α := ℕ)
    [.append ⟨true, some 8⟩ 5, .insert ⟨true, none⟩ (-7) 6, .remove (· == ·) 5]
    (fun _ => ⟨fun _ => none, none⟩) (by
      refine ⟨by simp [segment, nodesOf, PmList.new], fun _ _ _ _ => ⟨by simp [segment],
        fun _ _ _ _ => ⟨by simp [segment], fun _ _ _ _ => trivial⟩⟩⟩)
  exact ⟨segs', pl', heq, hget (-1)⟩

end ListOp

end Etaos.Vm
