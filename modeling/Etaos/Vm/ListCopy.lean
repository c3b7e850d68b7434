import Etaos.Vm.PmListSpec

/-!
# Copies of lists

A list is replicated and a slice of it is taken by appending its items to a new list.  The new list
has the items that Python gives it unless there is no memory, and the old list stays.
-/

namespace Etaos.Vm

open Etaos.Vm.Segments

variable {α : Type} {segs segs' : Segments α} {pl src : PmList} {nodes nodes' : List ℕ}
  {l l' : List α} {chunks : List Chunks} {c : Chunks}

namespace PyList

/-- Some items are skipped, and then always all but the last one of a stride. -/
def everyFrom (stride : ℕ) : ℕ → List α → List α
  | _, [] => []
  | 0, x :: l => x :: everyFrom stride (stride - 1) l
  | k + 1, _ :: l => everyFrom stride k l

/-- The first item, and then always the one that is a stride behind. -/
def every (stride : ℕ) (l : List α) : List α := everyFrom stride 0 l

/-- A slice with a stride that is positive. -/
def slice (l : List α) (start : ℤ) (stop : Option ℤ) (stride : ℕ) : List α :=
  every stride ((l.take ((stop.map (bound l)).getD l.length)).drop (bound l start))

theorem everyFrom_eq (stride k : ℕ) (l : List α) :
  everyFrom stride k l = every stride (l.drop k)
  := by
  induction k generalizing l with
  | zero => rfl
  | succ k ih =>
      cases l with
      | nil => rfl
      | cons x l => exact ih l

theorem every_drop {stride i : ℕ} (hstride : 0 < stride) (h : i < l.length) :
  every stride (l.drop i) = l[i] :: every stride (l.drop (i + stride))
  := by
  rw [List.drop_eq_getElem_cons h, every, everyFrom, everyFrom_eq, List.drop_drop]
  congr 3
  omega

theorem every_nil (stride : ℕ) : every stride ([] : List α) = [] := rfl

/-- The items at all indices are the list. -/
theorem filterMap_range (l : List α) : (List.range l.length).filterMap (l[·]?) = l := by
  have htake (n : ℕ) : (List.range n).filterMap (l[·]?) = l.take n := by
    induction n with
    | zero => rfl
    | succ n ih =>
        rw [List.range_succ, List.filterMap_append, ih, List.take_add_one]
        cases h : l[n]? <;> simp [h]
  rw [htake, List.take_length]

end PyList

/-! ### Appending items -/

/-- A request is answered with memory. -/
def Chunks.Given (c : Chunks) : Prop :=
  c.seglist = true ∧ c.segment ≠ none

/-- The segments that are given. -/
def Chunks.segments (chunks : List Chunks) : List ℕ :=
  chunks.filterMap Chunks.segment

namespace PmList

/-- The old list stays, and the new list gets some items, unless it can not be made or there is no
memory for an item. -/
def Copied (src : PmList) (nodes : List ℕ) (l : List α) (made : Bool) (chunks : List Chunks)
    (l' : List α) (result : Listed α) : Prop :=
  ∃ segs' pl' r nodes', result = some (segs', pl', r) ∧ src.Holds segs' nodes l ∧
    ((made = true ∧ r = .ok ∧ pl'.Holds segs' nodes' l') ∨
      (r = .exMem ∧ (made = false ∨ ∃ c ∈ chunks, ¬ c.Given)))

/-- The new list can not be made. -/
theorem copied_refused (hs : src.Holds segs nodes l) (chunks : List Chunks) (l' : List α) :
  Copied src nodes l false chunks l' (some (segs, new, .exMem))
  := ⟨segs, new, .exMem, [], rfl, hs, Or.inr ⟨rfl, Or.inl rfl⟩⟩

/-- An item that is copied before others. -/
theorem Copied.cons {result : Listed α} (h : Copied src nodes l true chunks l' result) :
  Copied src nodes l true (c :: chunks) l' result
  := by
  obtain ⟨segs', pl', r, nodes', heq, hs', hr⟩ := h
  refine ⟨segs', pl', r, nodes', heq, hs', hr.imp_right ?_⟩
  rintro ⟨rfl, hmade | ⟨c', hc', hgiven⟩⟩
  · cases hmade
  · exact ⟨rfl, Or.inr ⟨c', List.mem_cons_of_mem _ hc', hgiven⟩⟩

theorem segments_cons (c : Chunks) (chunks : List Chunks) :
  Chunks.segments (c :: chunks) = c.segment.toList ++ Chunks.segments chunks
  := by
  rw [Chunks.segments, List.filterMap_cons]
  cases c.segment <;> rfl

/-- One item is appended. -/
theorem copyItem_eq (hs : src.Holds segs nodes l) (hp : pl.Holds segs nodes' l')
    (h : Separate nodes nodes' (Chunks.segments (c :: chunks))) {n : ℕ} (hn : n < l.length) :
  ∃ segs' pl' r nodes'', copyItem segs src pl (n : ℤ) c = some (segs', pl', r) ∧
    src.Holds segs' nodes l ∧ Separate nodes nodes'' (Chunks.segments chunks) ∧
      ((r = .ok ∧ pl'.Holds segs' nodes'' (l' ++ [l[n]])) ∨ (r = .exMem ∧ ¬ c.Given))
  := by
  have hindex : PyList.index l (n : ℤ) = some n := by
    rw [PyList.index, if_pos ⟨Int.natCast_nonneg n, by exact_mod_cast hn⟩, Int.toNat_natCast]
  rw [segments_cons] at h
  have hfresh : ∀ a ∈ (ListOp.append c l[n]).segment, a ∉ nodes' :=
    fun a ha => h.target a (List.mem_append_left _ (Option.mem_toList.mpr ha))
  obtain ⟨segs', pl', nodes'', heq, hp', hsub, hwithin⟩ :=
    (ListOp.performed_exec hp (.append c l[n]) hfresh).done
  have hs' : src.Holds segs' nodes l := hs.congr (h.within hwithin)
  refine ⟨segs', pl', (ListOp.apply l' (.append c l[n])).2, nodes'', ?_, hs', h.step hsub, ?_⟩
  · rw [copyItem, hs.getItem_eq, hindex]
    simp only [Option.bind_some, List.getElem?_eq_getElem hn]
    exact heq
  · simp only [ListOp.apply] at hp' ⊢
    by_cases hsupplied : ListOp.Supplied l' c
    · rw [if_pos hsupplied] at hp' ⊢
      exact Or.inl ⟨rfl, hp'⟩
    · rw [if_neg hsupplied]
      exact Or.inr ⟨rfl, fun hgiven => hsupplied ⟨fun _ => hgiven.1, fun _ => hgiven.2⟩⟩

/-- The items at some indices are appended. -/
theorem copyItems_eq (ks : List ℕ) (hs : src.Holds segs nodes l) (hp : pl.Holds segs nodes' l')
    (h : Separate nodes nodes' (Chunks.segments chunks)) (hks : ∀ k ∈ ks, k < l.length)
    (hlength : ks.length ≤ chunks.length) :
  Copied src nodes l true chunks (l' ++ ks.filterMap (l[·]?))
    (copyItems src (ks.map Int.ofNat) chunks segs pl)
  := by
  induction ks generalizing chunks segs pl nodes' l' with
  | nil =>
      rw [List.filterMap_nil, List.append_nil]
      exact ⟨segs, pl, .ok, nodes', rfl, hs, Or.inl ⟨rfl, rfl, hp⟩⟩
  | cons k ks ih =>
      cases chunks with
      | nil => cases hlength
      | cons c chunks =>
          have hk := hks k List.mem_cons_self
          obtain ⟨segs₁, pl₁, r, nodes₁, heq, hs₁, h₁, hr⟩ := copyItem_eq hs hp h hk
          rw [List.map_cons, copyItems, Int.ofNat_eq_natCast, heq]
          simp only [Option.bind_some]
          rcases hr with ⟨rfl, hp₁⟩ | ⟨rfl, hgiven⟩
          · have hcopied := ih hs₁ hp₁ h₁
              (fun k hk => hks k (List.mem_cons_of_mem _ hk)) (Nat.le_of_succ_le_succ hlength)
            rw [if_pos rfl, List.filterMap_cons, List.getElem?_eq_getElem hk]
            rw [List.append_assoc] at hcopied
            exact hcopied.cons
          · exact ⟨segs₁, pl₁, .exMem, nodes₁, if_neg (by decide), hs₁,
              Or.inr ⟨rfl, Or.inr ⟨c, List.mem_cons_self, hgiven⟩⟩⟩

/-- The items of a slice are appended. -/
theorem sliceFrom_eq {i stop stride : ℕ} (hs : src.Holds segs nodes l)
    (hp : pl.Holds segs nodes' l') (h : Separate nodes nodes' (Chunks.segments chunks))
    (hstop : stop ≤ l.length) (hstride : 0 < stride) (hwrap : stop + stride ≤ 2 ^ 15)
    (hlength : (PyList.every stride ((l.take stop).drop i)).length ≤ chunks.length) :
  Copied src nodes l true chunks (l' ++ PyList.every stride ((l.take stop).drop i))
    (sliceFrom src stop stride chunks i segs pl)
  := by
  induction chunks generalizing i segs pl nodes' l' with
  | nil =>
      have hge : stop ≤ i := by
        by_contra hlt
        rw [PyList.every_drop hstride (by rw [List.length_take]; omega)] at hlength
        cases hlength
      rw [sliceFrom, if_neg (by exact_mod_cast Nat.not_lt.mpr hge),
        List.drop_eq_nil_of_le (by rw [List.length_take]; omega), PyList.every_nil, List.append_nil]
      exact ⟨segs, pl, .ok, nodes', rfl, hs, Or.inl ⟨rfl, rfl, hp⟩⟩
  | cons c chunks ih =>
      by_cases hlt : i < stop
      · have hi : i < l.length := by omega
        obtain ⟨segs₁, pl₁, r, nodes₁, heq, hs₁, h₁, hr⟩ := copyItem_eq hs hp h hi
        have hnext : ((i : ℤ) + stride).bmod (2 ^ 16) = ((i + stride : ℕ) : ℤ) := by
          rw [Int.bmod_eq_of_le (by omega) (by omega)]
          exact (Nat.cast_add i stride).symm
        rw [PyList.every_drop hstride (by rw [List.length_take]; omega)] at hlength ⊢
        rw [sliceFrom, if_pos (by exact_mod_cast hlt)]
        simp only [heq, Option.bind_some]
        rcases hr with ⟨rfl, hp₁⟩ | ⟨rfl, hgiven⟩
        · have hcopied := ih (i := i + stride) hs₁ hp₁ h₁ (Nat.le_of_succ_le_succ hlength)
          rw [if_pos rfl, hnext, List.getElem_take]
          rw [List.append_assoc] at hcopied
          exact hcopied.cons
        · exact ⟨segs₁, pl₁, .exMem, nodes₁, if_neg (by decide), hs₁,
            Or.inr ⟨rfl, Or.inr ⟨c, List.mem_cons_self, hgiven⟩⟩⟩
      · rw [sliceFrom, if_neg (by exact_mod_cast hlt),
          List.drop_eq_nil_of_le (by rw [List.length_take]; omega), PyList.every_nil,
          List.append_nil]
        exact ⟨segs, pl, .ok, nodes', rfl, hs, Or.inl ⟨rfl, rfl, hp⟩⟩

theorem bound_eq (hs : pl.Holds segs nodes l) (i : ℤ) : pl.bound i = (PyList.bound l i : ℤ) := by
  have hlength := hs.length
  simp only [bound, PyList.bound, PyList.place]
  grind

theorem bound_le (l : List α) (i : ℤ) : PyList.bound l i ≤ l.length := PyList.place_le l i

/-- A list is replicated. -/
theorem copied_replicate (hs : pl.Holds segs nodes l)
    (h : Separate nodes [] (Chunks.segments chunks)) (made : Bool) (n : ℤ)
    (hlength : n.toNat * l.length ≤ chunks.length) :
  Copied pl nodes l made chunks (List.replicate n.toNat l).flatten
    (pl.replicate segs made n chunks)
  := by
  cases made with
  | false => exact copied_refused hs chunks _
  | true =>
      have hcopy := copyItems_eq (List.replicate n.toNat (List.range l.length)).flatten hs
        (holds_new segs) h
        (by
          intro k hk
          obtain ⟨ks, hks, hmem⟩ := List.mem_flatten.mp hk
          rw [List.eq_of_mem_replicate hks] at hmem
          exact List.mem_range.mp hmem)
        (by simpa using hlength)
      rw [List.filterMap_flatten, List.map_replicate, PyList.filterMap_range, List.nil_append,
        List.map_flatten, List.map_replicate] at hcopy
      rw [replicate, if_pos rfl, hs.length]
      exact hcopy

/-- A list with two items in one segment. -/
theorem holds_two :
  Holds (fun _ => ⟨fun k => [5, 6][k]?, none⟩) ⟨2, some ⟨2, some 4, some 4⟩⟩ [4] [5, 6]
  := ⟨rfl, nofun, fun _ => ⟨_, rfl, Seglist.holds_one (s := [5, 6]) (by simp) (by decide) rfl⟩⟩

/-- The list with two items twice. -/
theorem copied_replicate_two :
  Copied ⟨2, some ⟨2, some 4, some 4⟩⟩ [4] [5, 6] true
    (⟨true, some 8⟩ :: List.replicate 3 ⟨true, none⟩) [5, 6, 5, 6]
    (replicate (fun _ => ⟨fun k => [5, 6][k]?, none⟩) ⟨2, some ⟨2, some 4, some 4⟩⟩ true 2
      (⟨true, some 8⟩ :: List.replicate 3 ⟨true, none⟩))
  := copied_replicate holds_two ⟨by simp, by decide, by decide, by decide⟩ true 2 (by decide)

/-- A slice of a list, whose last index and stride are an `int16_t`. -/
theorem copied_slice (start : ℤ) (stop : Option ℤ) {stride : ℕ} (hs : pl.Holds segs nodes l)
    (h : Separate nodes [] (Chunks.segments chunks)) (made : Bool) (hstride : 0 < stride)
    (hl : l.length < 2 ^ 15)
    (hwrap : (stop.map (PyList.bound l)).getD l.length + stride ≤ 2 ^ 15)
    (hlength : (PyList.slice l start stop stride).length ≤ chunks.length) :
  Copied pl nodes l made chunks (PyList.slice l start stop stride)
    (pl.slice segs made start stop stride chunks)
  := by
  have hstart : (pl.bound start).bmod (2 ^ 16) = (PyList.bound l start : ℤ) := by
    have hle := bound_le l start
    rw [bound_eq hs, Int.bmod_eq_of_le (by omega) (by omega)]
  have hle : (stop.map (PyList.bound l)).getD l.length ≤ l.length := by
    cases stop with
    | none => exact le_rfl
    | some stop => exact bound_le l stop
  have hfrom := sliceFrom_eq hs (holds_new segs) h hle hstride hwrap hlength
  rw [List.nil_append] at hfrom
  cases made with
  | false => exact copied_refused hs chunks _
  | true =>
      rw [slice.eq_def, if_pos rfl, hstart]
      cases stop with
      | none =>
          simp only [hs.length]
          exact hfrom
      | some stop =>
          simp only [bound_eq hs]
          exact hfrom

/-- The slice of a list with two items that begins at the last one. -/
theorem copied_slice_two :
  Copied ⟨2, some ⟨2, some 4, some 4⟩⟩ [4] [5, 6] true [⟨true, some 8⟩] [6]
    (slice (fun _ => ⟨fun k => [5, 6][k]?, none⟩) ⟨2, some ⟨2, some 4, some 4⟩⟩ true (-1) none 3
      [⟨true, some 8⟩])
  := by
  have happart : Separate [4] [] (Chunks.segments [⟨true, some 8⟩]) :=
    ⟨by simp, by decide, by decide, by decide⟩
  exact copied_slice (-1) none holds_two happart true (show 0 < 3 by decide) (by decide)
    (by decide) (by decide)

end PmList

end Etaos.Vm
