import Etaos.Vm.PmDictSpec

/-!
# Runs of a dict object

Whatever calls are made, a dict object gives what a finite map gives.  The keys are those of
`obj_compare`, which is an equivalence.
-/

namespace Etaos.Vm

open Etaos.Vm.Segments Assoc

variable {α : Type} [DecidableEq α] {objs : Objects α} {segs segs' : Segments α}
  {pd pd' : PmDict} {ks vs : List ℕ} {l : List (α × α)} {k v : α} {c : DictChunks}

/-- The values of all objects as keys, and the number of keys. -/
structure PyMap (α : Type) where
  val : α → Option α
  size : ℕ

namespace PyMap

/-- The map without keys. -/
def empty : PyMap α := ⟨fun _ => none, 0⟩

/-- The map has the entries of a list. -/
structure Holds (compare : α → α → Bool) (m : PyMap α) (l : List (α × α)) : Prop where
  val : ∀ k, m.val k = lookup compare k l
  size : m.size = l.length
  distinct : Distinct compare l

omit [DecidableEq α] in
theorem holds_empty (compare : α → α → Bool) : Holds compare (empty : PyMap α) [] :=
  ⟨fun _ => rfl, rfl, List.Pairwise.nil⟩

/-- A key gets a value, or has none. -/
def update (compare : α → α → Bool) (m : PyMap α) (k : α) (v : Option α) (size : ℕ) : PyMap α :=
  ⟨fun k' => if compare k' k then v else m.val k', size⟩

end PyMap

/-- A call of a function of dict objects. -/
inductive DictOp (α : Type)
  | setItem (chunks : DictChunks) (pkey pval : α)
  | delItem (pkey : α)
  | clear

namespace DictOp

/-- A call. -/
def exec (objs : Objects α) (segs : Segments α) (pd : PmDict) : DictOp α → Option (Dicted α)
  | setItem chunks pkey pval => pd.setItem objs segs chunks pkey pval
  | delItem pkey => pd.delItem objs segs pkey
  | clear => (pd.clear segs).map fun (pd, _) => (segs, pd, .ok)

/-- What happens to the map. -/
def act (objs : Objects α) (m : PyMap α) : DictOp α → PyMap α × PmReturn
  | setItem c k v =>
      if OBJ_TYPE_HASHABLE_MAX < objs.type k then (m, .exType)
      else
        let k := PmDict.toKey objs k
        if (m.val k).isSome then (m.update objs.compare k (some v) m.size, .ok)
        else if PmDict.Supplied m.size c then
          (m.update objs.compare k (some v) (m.size + 1), .ok)
        else (m, .exMem)
  | delItem k =>
      if (m.val k).isSome then (m.update objs.compare k none (m.size - 1), .ok) else (m, .exKey)
  | clear => (PyMap.empty, .ok)

/-- What happens to the entries. -/
def apply (objs : Objects α) (l : List (α × α)) : DictOp α → List (α × α) × PmReturn
  | setItem c k v => PmDict.put objs c k v l
  | delItem k =>
      if (lookup objs.compare k l).isSome then (delete objs.compare k l, .ok) else (l, .exKey)
  | clear => ([], .ok)

omit [DecidableEq α] in
theorem holds_store (hcompare : Equivalence fun a b => objs.compare a b = true) {m : PyMap α}
    (h : m.Holds objs.compare l) (k v : α) :
  (m.update objs.compare k (some v) (if (lookup objs.compare k l).isSome then l.length
      else l.length + 1)).Holds objs.compare (store objs.compare k v l)
  := by
  refine ⟨?_, (length_store k v l).symm, distinct_store h.distinct k v⟩
  intro k'
  rw [lookup_store hcompare, PyMap.update]
  simp only [h.val]

/-- The entries are those of the map. -/
theorem holds_apply (hcompare : Equivalence fun a b => objs.compare a b = true) {m : PyMap α}
    (h : m.Holds objs.compare l) (op : DictOp α) :
  (op.act objs m).1.Holds objs.compare (op.apply objs l).1 ∧
    (op.act objs m).2 = (op.apply objs l).2
  := by
  cases op with
  | setItem c k v =>
      rw [act, apply, PmDict.put, PmDict.add]
      by_cases htype : OBJ_TYPE_HASHABLE_MAX < objs.type k
      · rw [if_pos htype, if_pos htype]
        exact ⟨h, rfl⟩
      · rw [if_neg htype, if_neg htype]
        have hstore := holds_store hcompare h (PmDict.toKey objs k) v
        rw [store] at hstore
        simp only [h.val, h.size]
        by_cases hfound : (lookup objs.compare (PmDict.toKey objs k) l).isSome
        · rw [if_pos hfound, if_pos hfound] at hstore
          rw [if_pos hfound, if_pos hfound]
          exact ⟨hstore, rfl⟩
        · rw [if_neg hfound, if_neg hfound] at hstore
          rw [if_neg hfound, if_neg hfound]
          by_cases hsupplied : PmDict.Supplied l.length c
          · rw [if_pos hsupplied, if_pos hsupplied]
            exact ⟨hstore, rfl⟩
          · rw [if_neg hsupplied, if_neg hsupplied]
            exact ⟨h, rfl⟩
  | delItem k =>
      rw [act, apply, h.val]
      by_cases hfound : (lookup objs.compare k l).isSome
      · rw [if_pos hfound, if_pos hfound]
        refine ⟨⟨?_, ?_, distinct_delete h.distinct k⟩, rfl⟩
        · intro k'
          rw [lookup_delete hcompare h.distinct, PyMap.update]
          simp only [h.val]
        · have hlength := length_delete hfound
          simp only [PyMap.update, h.size]
          omega
      · rw [if_neg hfound, if_neg hfound]
        exact ⟨h, rfl⟩
  | clear => exact ⟨PyMap.holds_empty objs.compare, rfl⟩

/-- The segments of a dict object. -/
def nodesOf (segs : Segments α) (pd : PmDict) : List ℕ :=
  ((pd.clear segs).map Prod.snd).getD []

omit [DecidableEq α] in
theorem nodesOf_eq (hs : pd.Holds segs ks vs l) : nodesOf segs pd = ks ++ vs := by
  rw [nodesOf, hs.clear_eq]
  rfl

/-- A call gets new segments, and not only the one for the key.  A key is deleted only when the
seglists were made. -/
def Ready (segs : Segments α) (pd : PmDict) : DictOp α → Prop
  | setItem chunks _ _ => PmDict.New (nodesOf segs pd) chunks ∧ PmDict.Paired pd.length chunks
  | delItem _ => pd.dKeys ≠ none
  | clear => True

/-- A call does to the entries what it does to the list. -/
theorem exec_eq (objs : Objects α) (hs : pd.Holds segs ks vs l) {op : DictOp α}
    (hready : op.Ready segs pd) :
  ∃ segs' pd' ks' vs', op.exec objs segs pd = some (segs', pd', (op.apply objs l).2) ∧
    pd'.Holds segs' ks' vs' (op.apply objs l).1
  := by
  cases op with
  | setItem c k v =>
      obtain ⟨hnew, hpaired⟩ := hready
      rw [nodesOf_eq hs] at hnew
      rw [hs.length] at hpaired
      obtain ⟨segs', pd', ks', vs', heq, hs', -, -⟩ := hs.performed_setItem objs hnew hpaired k v
      exact ⟨segs', pd', ks', vs', heq, hs'⟩
  | delItem k =>
      obtain ⟨segs', pd', ks', vs', heq, hs', -, -⟩ := hs.performed_delItem objs hready k
      refine ⟨segs', pd', ks', vs', ?_, ?_⟩
      · rw [exec, heq, apply]
        split <;> rfl
      · rw [apply]
        split at hs'
        · rw [if_pos (by assumption)]
          exact hs'
        · rw [if_neg (by assumption)]
          exact hs'
  | clear =>
      refine ⟨segs, PmDict.new, [], [], ?_, PmDict.holds_new segs⟩
      rw [exec, hs.clear_eq]
      rfl

/-- Some calls in order, and what they return. -/
def run (objs : Objects α) : List (DictOp α) → Segments α → PmDict →
    Option (Segments α × PmDict × List PmReturn)
  | [], segs, pd => some (segs, pd, [])
  | op :: ops, segs, pd => do
      let (segs, pd, r) ← op.exec objs segs pd
      let (segs, pd, rs) ← run objs ops segs pd
      some (segs, pd, r :: rs)

/-- What happens to the map in order. -/
def actAll (objs : Objects α) : List (DictOp α) → PyMap α → PyMap α × List PmReturn
  | [], m => (m, [])
  | op :: ops, m =>
      let (m, r) := op.act objs m
      let (m, rs) := actAll objs ops m
      (m, r :: rs)

/-- All calls are ready. -/
def Fresh (objs : Objects α) : List (DictOp α) → Segments α → PmDict → Prop
  | [], _, _ => True
  | op :: ops, segs, pd => op.Ready segs pd ∧
      ∀ segs' pd' r, op.exec objs segs pd = some (segs', pd', r) → Fresh objs ops segs' pd'

theorem run_eq (hcompare : Equivalence fun a b => objs.compare a b = true) {ops : List (DictOp α)}
    {m : PyMap α} (hs : pd.Holds segs ks vs l) (hm : m.Holds objs.compare l)
    (hfresh : Fresh objs ops segs pd) :
  ∃ segs' pd' ks' vs' l', run objs ops segs pd = some (segs', pd', (actAll objs ops m).2) ∧
    pd'.Holds segs' ks' vs' l' ∧ (actAll objs ops m).1.Holds objs.compare l'
  := by
  induction ops generalizing segs pd ks vs l m with
  | nil => exact ⟨segs, pd, ks, vs, l, rfl, hs, hm⟩
  | cons op ops ih =>
      obtain ⟨hready, hrest⟩ := hfresh
      obtain ⟨segs₁, pd₁, ks₁, vs₁, heq, hs₁⟩ := exec_eq objs hs hready
      obtain ⟨hm₁, hr⟩ := holds_apply hcompare hm op
      obtain ⟨segs', pd', ks', vs', l', heq', hs', hm'⟩ := ih hs₁ hm₁ (hrest segs₁ pd₁ _ heq)
      refine ⟨segs', pd', ks', vs', l', ?_, hs', hm'⟩
      rw [run, heq]
      simp only [Option.bind_eq_bind, Option.bind_some, heq', actAll, hr]

/-- A key that is looked up is no boolean. -/
theorem keyed_toKey (hobjs : objs.Regular) (htype : objs.type k ≤ OBJ_TYPE_HASHABLE_MAX) :
  objs.type (PmDict.toKey objs k) ≤ OBJ_TYPE_HASHABLE_MAX ∧
    PmDict.toKey objs (PmDict.toKey objs k) = PmDict.toKey objs k
  := by
  have hone : PmDict.toKey objs objs.pmOne = objs.pmOne := by
    rw [PmDict.toKey, if_neg hobjs.one.1, if_neg hobjs.one.2]
  have hzero : PmDict.toKey objs objs.pmZero = objs.pmZero := by
    rw [PmDict.toKey, if_neg hobjs.zero.1, if_neg hobjs.zero.2]
  by_cases htrue : k = objs.pmTrue
  · rw [PmDict.toKey, if_pos htrue]
    exact ⟨hobjs.typeOne, hone⟩
  · by_cases hfalse : k = objs.pmFalse
    · rw [PmDict.toKey, if_neg htrue, if_pos hfalse]
      exact ⟨hobjs.typeZero, hzero⟩
    · have hk : PmDict.toKey objs k = k := by
        rw [PmDict.toKey, if_neg htrue, if_neg hfalse]
      rw [hk, hk]
      exact ⟨htype, rfl⟩

theorem keyed_apply (hobjs : objs.Regular) (h : PmDict.Keyed objs l) (op : DictOp α) :
  PmDict.Keyed objs (op.apply objs l).1
  := by
  cases op with
  | setItem c k v =>
      rw [apply, PmDict.put, PmDict.add]
      by_cases htype : OBJ_TYPE_HASHABLE_MAX < objs.type k
      · rw [if_pos htype]
        exact h
      · rw [if_neg htype]
        by_cases hfound : (lookup objs.compare (PmDict.toKey objs k) l).isSome
        · rw [if_pos hfound]
          obtain ⟨i, hi⟩ := exists_findIdx_of_lookup hfound
          intro e he
          have hmem := List.mem_map_of_mem (f := Prod.fst) he
          rw [(replace_eq hi v).1] at hmem
          obtain ⟨e', he', heq⟩ := List.mem_map.mp hmem
          rw [← heq]
          exact h e' he'
        · rw [if_neg hfound]
          by_cases hsupplied : PmDict.Supplied l.length c
          · rw [if_pos hsupplied]
            exact List.forall_mem_cons.mpr ⟨keyed_toKey hobjs (Nat.not_lt.mp htype), h⟩
          · rw [if_neg hsupplied]
            exact h
  | delItem k =>
      rw [apply]
      by_cases hfound : (lookup objs.compare k l).isSome
      · rw [if_pos hfound]
        exact fun e he => h e ((delete_sublist k l).subset he)
      · rw [if_neg hfound]
        exact h
  | clear => exact fun e he => absurd he List.not_mem_nil

/-- The keys of a dict object are hashable, no booleans and different from one another after every
run. -/
theorem run_formed (hobjs : objs.Regular)
    (hcompare : Equivalence fun a b => objs.compare a b = true)
    {ops : List (DictOp α)} (hs : pd.Formed objs segs ks vs l) (hfresh : Fresh objs ops segs pd) :
  ∃ segs' pd' ks' vs' l' rs, run objs ops segs pd = some (segs', pd', rs) ∧
    pd'.Formed objs segs' ks' vs' l'
  := by
  induction ops generalizing segs pd ks vs l with
  | nil => exact ⟨segs, pd, ks, vs, l, [], rfl, hs⟩
  | cons op ops ih =>
      obtain ⟨hready, hrest⟩ := hfresh
      obtain ⟨segs₁, pd₁, ks₁, vs₁, heq, hs₁⟩ := exec_eq objs hs.toHolds hready
      have hm : (PyMap.mk (fun k => lookup objs.compare k l) l.length).Holds objs.compare l :=
        ⟨fun _ => rfl, rfl, hs.distinct⟩
      have hs₁ : pd₁.Formed objs segs₁ ks₁ vs₁ (op.apply objs l).1 :=
        ⟨hs₁, (holds_apply hcompare hm op).1.distinct, keyed_apply hobjs hs.keyed op⟩
      obtain ⟨segs', pd', ks', vs', l', rs, heq', hs'⟩ := ih hs₁ (hrest segs₁ pd₁ _ heq)
      refine ⟨segs', pd', ks', vs', l', (op.apply objs l).2 :: rs, ?_, hs'⟩
      rw [run, heq]
      simp only [Option.bind_eq_bind, Option.bind_some, heq']

end DictOp

end Etaos.Vm
