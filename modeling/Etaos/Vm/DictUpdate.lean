import Etaos.Vm.PmDictSpec

/-!
# Updates and comparisons of dict objects

A dict object is updated with the entries of another one, and two of them are compared.  When only
the segment for the value of a new key can not be made, the keys and the values get out of step.
-/

namespace Etaos.Vm

open Etaos.Vm.Segments Assoc Seglist

variable {α : Type} [DecidableEq α] {objs : Objects α} {segs segs' : Segments α}
  {pd pd' src pd1 pd2 : PmDict} {ks vs ks' vs' : List ℕ} {l l' : List (α × α)} {k v : α}
  {c : DictChunks}

namespace PmDict

/-! ### Comparisons -/

/-- The entries of the first dict object from an index on are in the second one. -/
theorem compareFrom_eq (hs1 : Holds segs pd1 ks vs l) (hs2 : Holds segs pd2 ks' vs' l')
    (hkeyed : Keyed objs l) {n i : ℕ} (h : i + n = l.length) :
  compareFrom objs segs pd1 pd2 n i
    = some ((l.drop i).all fun e =>
        (lookup objs.compare e.1 l').any (objs.compare e.2))
  := by
  induction n generalizing i with
  | zero =>
      rw [List.drop_eq_nil_of_le (by omega)]
      rfl
  | succ n ih =>
      have hlt : i < l.length := by omega
      obtain ⟨keys, vals, hkeys1, hvals1, hsk, hsv⟩ := hs1.seglists (List.ne_nil_of_length_pos
        (by omega))
      rw [compareFrom, hkeys1, hvals1, List.drop_eq_getElem_cons hlt, List.all_cons]
      simp only [Option.bind_eq_bind, Option.bind_some,
        hsk.getItem_eq (show i < (l.map Prod.fst).length by rwa [List.length_map]),
        hsv.getItem_eq (show i < (l.map Prod.snd).length by rwa [List.length_map]),
        List.getElem_map, hs2.getItem_eq, (hkeyed l[i] (List.getElem_mem hlt)).2]
      cases hv : lookup objs.compare l[i].1 l' with
      | none => rfl
      | some v =>
          simp only [Option.bind_some, Option.any_some]
          by_cases hsame : objs.compare l[i].2 v = true
          · rw [if_pos hsame, ih (by omega), hsame, Bool.true_and]
          · rw [if_neg hsame, Bool.not_eq_true] at *
            rw [hsame, Bool.false_and]

/-- Two dict objects are the same exactly when all keys have the same values in them. -/
theorem compare_iff (hcompare : Equivalence fun a b => objs.compare a b = true)
    (hs1 : Formed objs segs pd1 ks vs l) (hs2 : Formed objs segs pd2 ks' vs' l') :
  ∃ r, PmDict.compare objs segs pd1 pd2 = some r ∧
    (r = true ↔ ∀ k, Option.Rel (fun v v' => objs.compare v v' = true)
      (lookup objs.compare k l) (lookup objs.compare k l'))
  := by
  have hiff := agree_iff hcompare hs1.distinct hs2.distinct fun v v' => objs.compare v v' = true
  rw [PmDict.compare, hs1.length, hs2.length]
  by_cases hlength : l.length = l'.length
  · rw [if_neg (not_not.mpr hlength),
      compareFrom_eq hs1.toHolds hs2.toHolds hs1.keyed (Nat.zero_add _)]
    refine ⟨_, rfl, ?_⟩
    rw [← hiff, List.drop_zero, List.all_eq_true]
    constructor
    · intro h
      refine ⟨hlength, fun e he => ?_⟩
      exact (Option.any_eq_true _ _).mp (h e he)
    · rintro ⟨-, h⟩ e he
      exact (Option.any_eq_true _ _).mpr (h e he)
  · rw [if_pos hlength]
    refine ⟨false, rfl, ?_⟩
    rw [← hiff]
    simp [hlength]

/-- The integers as objects. -/
def ints : Objects ℕ := ⟨100, 101, 1, 0, fun _ => 1, (· == ·), fun k => k == 7⟩

/-- Equality is an equivalence. -/
theorem ints_compare : Equivalence fun a b => ints.compare a b = true :=
  ⟨fun a => beq_self_eq_true a, fun h => beq_iff_eq.mpr (beq_iff_eq.mp h).symm,
    fun h h' => beq_iff_eq.mpr ((beq_iff_eq.mp h).trans (beq_iff_eq.mp h'))⟩

/-- Segments with the keys and the values of two dict objects. -/
def twoSegments : Segments ℕ := fun a =>
  ⟨fun k => (if a = 8 then [5, 6] else if a = 16 then [50, 60] else if a = 24 then [6, 5]
    else [60, 50])[k]?, none⟩

theorem formed_first :
  Formed ints twoSegments ⟨2, some ⟨2, some 8, some 8⟩, some ⟨2, some 16, some 16⟩⟩ [8] [16]
    [(5, 50), (6, 60)]
  := ⟨holds_one (l := [(5, 50), (6, 60)]) (by decide) (by simp) (by decide) rfl rfl,
    by simp [Distinct, ints], by simp [Keyed, ints, OBJ_TYPE_HASHABLE_MAX, toKey]⟩

theorem formed_second :
  Formed ints twoSegments ⟨2, some ⟨2, some 24, some 24⟩, some ⟨2, some 32, some 32⟩⟩ [24] [32]
    [(6, 60), (5, 50)]
  := ⟨holds_one (l := [(6, 60), (5, 50)]) (by decide) (by simp) (by decide) rfl rfl,
    by simp [Distinct, ints], by simp [Keyed, ints, OBJ_TYPE_HASHABLE_MAX, toKey]⟩

/-- Two dict objects with the same entries in another order. -/
theorem compare_iff_two :
  ∃ r, PmDict.compare ints twoSegments ⟨2, some ⟨2, some 8, some 8⟩, some ⟨2, some 16, some 16⟩⟩
      ⟨2, some ⟨2, some 24, some 24⟩, some ⟨2, some 32, some 32⟩⟩ = some r ∧
    (r = true ↔ ∀ k, Option.Rel (fun v v' => ints.compare v v' = true)
      (lookup ints.compare k [(5, 50), (6, 60)]) (lookup ints.compare k [(6, 60), (5, 50)]))
  := compare_iff ints_compare formed_first formed_second

/-! ### Updates -/

/-- A request is answered with memory. -/
def Given (c : DictChunks) : Prop :=
  c.keys = true ∧ c.vals = true ∧ c.keySegment ≠ none ∧ c.valSegment ≠ none

/-- The segments that are given. -/
def segments (chunks : List DictChunks) : List ℕ :=
  chunks.flatMap fun c => c.keySegment.toList ++ c.valSegment.toList

/-- An entry is not left out. -/
def kept (objs : Objects α) (omitUnderscored : Bool) (e : α × α) : Bool :=
  ¬ (omitUnderscored ∧ objs.underscored e.1)

/-- The entries of a list get in, unless there is no memory, and the source stays. -/
def Updated (src : PmDict) (ks' vs' : List ℕ) (l' : List (α × α))
    (chunks : List DictChunks) (l : List (α × α)) (result : Option (Dicted α)) : Prop :=
  ∃ segs' pd' r ks vs, result = some (segs', pd', r) ∧ Holds segs' src ks' vs' l' ∧
    ((r = .ok ∧ Holds segs' pd' ks vs l) ∨ (r = .exMem ∧ ∃ c ∈ chunks, ¬ Given c))

/-- A key of a dict object gets a value unless there is no memory. -/
theorem put_eq (htype : objs.type k ≤ OBJ_TYPE_HASHABLE_MAX) (hkey : toKey objs k = k)
    (c : DictChunks) (v : α) (l : List (α × α)) :
  put objs c k v l = (store objs.compare k v l, .ok)
    ∨ (put objs c k v l).2 = .exMem ∧ ¬ Given c
  := by
  rw [put, if_neg (Nat.not_lt.mpr htype), hkey, store]
  by_cases hfound : (lookup objs.compare k l).isSome
  · rw [if_pos hfound, if_pos hfound]
    exact Or.inl rfl
  · rw [if_neg hfound, if_neg hfound, add]
    by_cases hsupplied : Supplied l.length c
    · rw [if_pos hsupplied]
      exact Or.inl rfl
    · rw [if_neg hsupplied]
      exact Or.inr ⟨rfl, fun h => hsupplied ⟨fun _ => ⟨h.1, h.2.1⟩, fun _ => h.2.2.1⟩⟩

omit [DecidableEq α] in
/-- The segments that are given are not those of the dict object. -/
theorem new_of_separate {source nodes fresh : List ℕ}
    (h : Separate source nodes (c.keySegment.toList ++ c.valSegment.toList ++ fresh)) :
  New nodes c
  := by
  refine ⟨?_, ?_, ?_⟩
  · exact fun a ha => h.target a
      (List.mem_append_left _ (List.mem_append_left _ (Option.mem_toList.mpr ha)))
  · exact fun a ha => h.target a
      (List.mem_append_left _ (List.mem_append_right _ (Option.mem_toList.mpr ha)))
  · intro a ha ha'
    obtain ⟨hnodup, -, -⟩ := List.nodup_append.mp h.nodup
    exact (List.nodup_append.mp hnodup).2.2 a (Option.mem_toList.mpr ha) a
      (Option.mem_toList.mpr ha') rfl

omit [DecidableEq α] in
/-- The source stays when a key of another dict object gets a value. -/
theorem Holds.of_within {chunks : List DictChunks} (hsrc : Holds segs src ks' vs' l')
    (h : Separate (ks' ++ vs') (ks ++ vs) (segments (c :: chunks)))
    (hwithin : Within (room (ks ++ vs) c) segs segs') :
  Holds segs' src ks' vs' l'
  := hsrc.congr (fun a ha => h.within hwithin a (List.mem_append_left _ ha))
    (fun a ha => h.within hwithin a (List.mem_append_right _ ha))

/-- The loop puts the entries that are left into the dict object, up to the first failure. -/
theorem updateFrom_eq (omitUnderscored : Bool) {chunks : List DictChunks} {n i : ℕ}
    (hs : Holds segs pd ks vs l) (hsrc : Holds segs src ks' vs' l') (hkeyed : Keyed objs l')
    (hseparate : Separate (ks' ++ vs') (ks ++ vs) (segments chunks)) (h : i + n = l'.length)
    (hlength : ((l'.drop i).filter (kept objs omitUnderscored)).length ≤ chunks.length) :
  Updated src ks' vs' l' chunks
    (union objs.compare l ((l'.drop i).filter (kept objs omitUnderscored)))
    (updateFrom objs src omitUnderscored n i chunks segs pd)
  := by
  induction n generalizing segs pd ks vs l i chunks with
  | zero =>
      rw [List.drop_eq_nil_of_le (by omega)]
      exact ⟨segs, pd, .ok, ks, vs, rfl, hsrc, Or.inl ⟨rfl, hs⟩⟩
  | succ n ih =>
      have hlt : i < l'.length := by omega
      obtain ⟨keys, vals, hkeys, hvals, hsk, hsv⟩ := hsrc.seglists (List.ne_nil_of_length_pos
        (by omega))
      rw [List.drop_eq_getElem_cons hlt] at hlength ⊢
      rw [updateFrom, hkeys, hvals]
      simp only [Option.bind_eq_bind, Option.bind_some,
        hsk.getItem_eq (show i < (l'.map Prod.fst).length by rwa [List.length_map]),
        hsv.getItem_eq (show i < (l'.map Prod.snd).length by rwa [List.length_map]),
        List.getElem_map]
      by_cases hkept : kept objs omitUnderscored l'[i] = true
      · rw [List.filter_cons_of_pos hkept] at hlength ⊢
        rw [if_neg (of_decide_eq_true hkept)]
        cases chunks with
        | nil => cases hlength
        | cons c chunks =>
            obtain ⟨htype, hkey⟩ := hkeyed l'[i] (List.getElem_mem hlt)
            have hnew := new_of_separate hseparate
            rcases hs.setItem_cases objs hnew l'[i].1 l'[i].2 with
              ⟨segs₁, pd₁, ks₁, vs₁, heq, hs₁, hsub, hwithin⟩ | ⟨hval, segs₁, pd₁, heq, hwithin⟩
            · have hsrc₁ := hsrc.of_within hseparate hwithin
              simp only [List.head?_cons, Option.bind_some, heq]
              rcases put_eq htype hkey c l'[i].2 l with hput | ⟨hput, hgiven⟩
              · rw [hput] at hs₁ ⊢
                obtain ⟨segs', pd', r, ks'', vs'', heq', hsrc', hr⟩ := ih hs₁ hsrc₁
                  (hseparate.step hsub) (show i + 1 + n = l'.length by omega)
                  (Nat.le_of_succ_le_succ hlength)
                refine ⟨segs', pd', r, ks'', vs'', ?_, hsrc', ?_⟩
                · rw [if_pos rfl, List.tail_cons, heq']
                · exact hr.imp_right fun ⟨hr, c', hc', hgiven⟩ =>
                    ⟨hr, c', List.mem_cons_of_mem _ hc', hgiven⟩
              · rw [hput]
                exact ⟨segs₁, pd₁, .exMem, ks₁, vs₁, if_neg (by decide), hsrc₁,
                  Or.inr ⟨rfl, c, List.mem_cons_self, hgiven⟩⟩
            · -- the keys and the values of the dict object are out of step
              simp only [List.head?_cons, Option.bind_some, heq]
              exact ⟨segs₁, pd₁, .exMem, ks, vs, if_neg (by decide),
                hsrc.of_within hseparate hwithin,
                Or.inr ⟨rfl, c, List.mem_cons_self, fun h => h.2.2.2 hval⟩⟩
      · rw [List.filter_cons_of_neg hkept] at hlength ⊢
        rw [if_pos (not_not.mp (of_decide_eq_false (Bool.not_eq_true _ ▸ hkept)))]
        exact ih hs hsrc hseparate (by omega) hlength

/-- After an update a key has its value in the source, if it has one that is not left out, or else
the one it had. -/
theorem update_lookup (hcompare : Equivalence fun a b => objs.compare a b = true)
    (omitUnderscored : Bool) (chunks : List DictChunks)
    (hs : Holds segs pd ks vs l) (hsrc : Formed objs segs src ks' vs' l')
    (hseparate : Separate (ks' ++ vs') (ks ++ vs) (segments chunks))
    (hlength : (l'.filter (kept objs omitUnderscored)).length ≤ chunks.length) :
  ∃ l'', Updated src ks' vs' l' chunks l''
      (pd.update objs segs src omitUnderscored chunks) ∧
    ∀ k, lookup objs.compare k l''
      = (lookup objs.compare k (l'.filter (kept objs omitUnderscored))).or
        (lookup objs.compare k l)
  := by
  have hupdated := updateFrom_eq omitUnderscored hs hsrc.toHolds hsrc.keyed
    hseparate (Nat.zero_add l'.length) hlength
  rw [List.drop_zero] at hupdated
  refine ⟨_, ?_, fun k => lookup_union hcompare (hsrc.distinct.filter _) k l⟩
  rw [PmDict.update, hsrc.length]
  exact hupdated

/-- A new dict object gets the entries of another one. -/
theorem update_lookup_new :
  ∃ l'', Updated ⟨2, some ⟨2, some 8, some 8⟩, some ⟨2, some 16, some 16⟩⟩ [8] [16]
      [(5, 50), (6, 60)] [⟨true, true, some 40, some 48⟩, ⟨true, true, none, none⟩] l''
      (PmDict.new.update ints twoSegments
        ⟨2, some ⟨2, some 8, some 8⟩, some ⟨2, some 16, some 16⟩⟩ true
        [⟨true, true, some 40, some 48⟩, ⟨true, true, none, none⟩]) ∧
    ∀ k, lookup ints.compare k l''
      = (lookup ints.compare k ([(5, 50), (6, 60)].filter (kept ints true))).or none
  := update_lookup ints_compare true
    [⟨true, true, some 40, some 48⟩, ⟨true, true, none, none⟩] (holds_new twoSegments)
    formed_first
    ⟨by simp, by simp [segments], by simp [segments], by simp [segments]⟩ (by decide)

/-! ### Out of step -/

/-- The keys get a new one and the values do not, but the length grows: every key has the value of
the key that was before it, and the last one has none. -/
theorem setItem_slips (objs : Objects α) (hs : Holds segs pd ks vs l)
    (hnew : New (ks ++ vs) c) (hl : l ≠ [])
    (hfull : l.length % SEGLIST_OBJS_PER_SEG = 0) (hkey : c.keySegment ≠ none)
    (hval : c.valSegment = none) (htype : objs.type k ≤ OBJ_TYPE_HASHABLE_MAX)
    (hfound : lookup objs.compare (toKey objs k) l = none) (v : α) :
  ∃ segs' pd', pd.setItem objs segs c k v = some (segs', pd', .exMem) ∧
    pd'.length = l.length + 1 ∧
      ∀ k', pd'.getItem objs segs' k'
        = match (toKey objs k :: l.map Prod.fst).findIdx? (objs.compare (toKey objs k')) with
          | none => some (.error .exKey)
          | some i => (l[i]?).map fun e => .ok (some e.2)
  := by
  obtain ⟨keys, vals, hkeys, hvals, hsk, hsv⟩ := hs.seglists hl
  have hpos : pd.length ≠ 0 := fun h => hl (hs.length_eq_zero_iff.mp h)
  obtain ⟨segs', keys', hinsert, hkeys', hsv', -⟩ :=
    hs.insert_slips hkeys hvals hnew hfull hkey hval (toKey objs k) v
  have hnone := findIdx_eq_none_iff.mpr hfound
  refine ⟨segs', { length := pd.length + 1, dKeys := some keys', dVals := some vals }, ?_, ?_, ?_⟩
  · rw [setItem, if_neg (Nat.not_lt.mpr htype), if_neg hpos, hkeys]
    simp only [Option.bind_eq_bind, Option.bind_some, hsk.findEqual_eq, hnone]
    exact hinsert
  · rw [hs.length]
  · intro k'
    rw [getItem, if_neg (Nat.succ_ne_zero _)]
    simp only [Option.bind_eq_bind, Option.bind_some, hkeys'.findEqual_eq]
    cases hi : (toKey objs k :: l.map Prod.fst).findIdx? (objs.compare (toKey objs k')) with
    | none => rfl
    | some i =>
        simp only
        by_cases hlt : i < l.length
        · rw [hsv'.getItem_eq (by rw [List.length_map]; exact hlt), List.getElem?_eq_getElem hlt,
            List.getElem_map]
          rfl
        · -- there is no segment behind the last value
          have hi' : i < (toKey objs k :: l.map Prod.fst).length :=
            (List.findIdx?_eq_some_iff_getElem.mp hi).1
          rw [List.length_cons, List.length_map] at hi'
          have hsize := hsv'.size
          rw [List.length_map] at hsize
          have hnode : vs[i / SEGLIST_OBJS_PER_SEG]? = none := by
            rw [List.getElem?_eq_none_iff, hsize]
            simp only [SEGLIST_OBJS_PER_SEG] at *
            omega
          rw [List.getElem?_eq_none (by omega), Seglist.getItem, hsv'.walk_eq, hnode]
          rfl

/-- A key comes in when there are eight. -/
theorem setItem_slips_eight :
  let l : List (ℕ × ℕ) := [(2, 52), (3, 53), (4, 54), (5, 55), (6, 56), (7, 57), (8, 58), (9, 59)]
  ∃ segs' pd', PmDict.setItem ints
      (fun a => ⟨fun k => (if a = 8 then l.map Prod.fst else l.map Prod.snd)[k]?, none⟩)
      ⟨8, some ⟨8, some 8, some 8⟩, some ⟨8, some 16, some 16⟩⟩ ⟨true, true, some 24, none⟩ 20 70
      = some (segs', pd', .exMem) ∧
    pd'.getItem ints segs' 20 = some (.ok (some 52)) ∧ pd'.getItem ints segs' 9 = none
  := by
  intro l
  have hs : Holds
      (fun a => ⟨fun k => (if a = 8 then l.map Prod.fst else l.map Prod.snd)[k]?, none⟩)
      ⟨8, some ⟨8, some 8, some 8⟩, some ⟨8, some 16, some 16⟩⟩ [8] [16] l :=
    holds_one (l := l) (by decide) (by simp [l]) (by simp [l, SEGLIST_OBJS_PER_SEG]) rfl rfl
  obtain ⟨segs', pd', heq, -, hget⟩ := setItem_slips ints (k := 20)
    (c := ⟨true, true, some 24, none⟩) hs ⟨by simp, by simp, by simp⟩ (by simp [l])
    (by simp [l, SEGLIST_OBJS_PER_SEG]) (by simp) rfl (by decide) (by decide) 70
  exact ⟨segs', pd', heq, hget 20, hget 9⟩

end PmDict

end Etaos.Vm
