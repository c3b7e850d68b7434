import Etaos.Library.Assoc
import Etaos.Vm.PmDict

/-!
# A dict object is a map

The keys and the values of a dict object are an association list, and what is looked up in it is a
map when `obj_compare` is an equivalence.  A request for memory that fails leaves the map as it is,
unless it is the one for the segment of the value.
-/

namespace Etaos.Vm

open Etaos.Vm.Segments Seglist Assoc

variable {α : Type} {objs : Objects α} {segs segs' : Segments α}
  {pd pd' pd1 pd2 : PmDict} {ks vs ks' vs' : List ℕ} {l l' : List (α × α)} {k v : α}
  {c : DictChunks}

namespace PmDict

/-- The dict object has the entries of `l`, with the keys in the segments at `ks` and the values in
those at `vs`. -/
structure Holds (segs : Segments α) (pd : PmDict) (ks vs : List ℕ) (l : List (α × α)) : Prop where
  length : pd.length = l.length
  keys : ∀ sl ∈ pd.dKeys, sl.Holds segs ks (l.map Prod.fst)
  vals : ∀ sl ∈ pd.dVals, sl.Holds segs vs (l.map Prod.snd)
  filled : l ≠ [] → pd.dKeys ≠ none ∧ pd.dVals ≠ none
  nil : l = [] → ks = [] ∧ vs = []
  apart : ∀ a ∈ ks, a ∉ vs

/-- A new dict object has no entries. -/
theorem holds_new (segs : Segments α) : Holds segs new [] [] [] :=
  ⟨rfl, by simp [new], by simp [new], fun h => absurd rfl h, fun _ => ⟨rfl, rfl⟩, by simp⟩

/-- The keys are hashable and no booleans. -/
def Keyed [DecidableEq α] (objs : Objects α) (l : List (α × α)) : Prop :=
  ∀ e ∈ l, objs.type e.1 ≤ OBJ_TYPE_HASHABLE_MAX ∧ toKey objs e.1 = e.1

/-- The dict object has the entries of `l`, which have different keys. -/
structure Formed [DecidableEq α] (objs : Objects α) (segs : Segments α) (pd : PmDict)
    (ks vs : List ℕ) (l : List (α × α)) : Prop extends Holds segs pd ks vs l where
  distinct : Distinct objs.compare l
  keyed : Keyed objs l

/-- Some entries in one segment for the keys and one for the values. -/
theorem holds_one {a b : ℕ} (hab : a ≠ b) (hne : l ≠ []) (hl : l.length ≤ SEGLIST_OBJS_PER_SEG)
    (ha : segs a = ⟨fun k => (l.map Prod.fst)[k]?, none⟩)
    (hb : segs b = ⟨fun k => (l.map Prod.snd)[k]?, none⟩) :
  Holds segs ⟨l.length, some ⟨l.length, some a, some a⟩, some ⟨l.length, some b, some b⟩⟩ [a] [b] l
  := by
  have hkeys := Seglist.holds_one (s := l.map Prod.fst) (by simpa using hne) (by simpa using hl) ha
  have hvals := Seglist.holds_one (s := l.map Prod.snd) (by simpa using hne) (by simpa using hl) hb
  rw [List.length_map] at hkeys hvals
  refine ⟨rfl, ?_, ?_, fun _ => ⟨Option.some_ne_none _, Option.some_ne_none _⟩,
    fun hnil => absurd hnil hne, by simpa using hab⟩
  · rintro sl ⟨⟩
    exact hkeys
  · rintro sl ⟨⟩
    exact hvals

/-- The segments that a request is answered with are new ones. -/
structure New (nodes : List ℕ) (c : DictChunks) : Prop where
  key : ∀ a ∈ c.keySegment, a ∉ nodes
  val : ∀ a ∈ c.valSegment, a ∉ nodes
  apart : ∀ a ∈ c.keySegment, a ∉ c.valSegment

/-- The segments that a dict object may have after a request. -/
def room (nodes : List ℕ) (c : DictChunks) : List ℕ :=
  nodes ++ (c.keySegment.toList ++ c.valSegment.toList)

theorem mem_grown {γ : Type} {a : ℕ} {nodes : List ℕ} {s : List γ} {chunk : Option ℕ}
    (h : a ∈ grown nodes s chunk) :
  a ∈ nodes ∨ a ∈ chunk
  := by
  rw [grown] at h
  split at h
  · rcases List.mem_append.mp h with h | h
    · exact Or.inl h
    · exact Or.inr (Option.mem_toList.mp h)
  · exact Or.inl h

/-- A function returns, and the dict object has the entries of `l` then.  Only some segments are
used. -/
def Performed (segs : Segments α) (nodes : List ℕ) (l : List (α × α)) (r : PmReturn)
    (result : Option (Dicted α)) : Prop :=
  ∃ segs' pd' ks' vs', result = some (segs', pd', r) ∧ Holds segs' pd' ks' vs' l ∧
    ks' ++ vs' ⊆ nodes ∧ Within nodes segs segs'

theorem Performed.mono {nodes nodes' : List ℕ} {r : PmReturn} {result : Option (Dicted α)}
    (h : Performed segs nodes l r result) (hsub : nodes ⊆ nodes') :
  Performed segs nodes' l r result
  := by
  obtain ⟨segs', pd', ks', vs', heq, hs', hnodes, hwithin⟩ := h
  exact ⟨segs', pd', ks', vs', heq, hs', List.Subset.trans hnodes hsub, Within.mono hwithin hsub⟩

/-- There is memory for a new key when there are `n` keys. -/
def Supplied (n : ℕ) (c : DictChunks) : Prop :=
  (n = 0 → c.keys = true ∧ c.vals = true) ∧
    (n % SEGLIST_OBJS_PER_SEG = 0 → c.keySegment ≠ none)

instance (n : ℕ) (c : DictChunks) : Decidable (Supplied n c) :=
  inferInstanceAs (Decidable ((n = 0 → _) ∧ (_ → _)))

/-- The entries when a new key comes in, and what is returned. -/
def add (c : DictChunks) (k v : α) (l : List (α × α)) : List (α × α) × PmReturn :=
  if Supplied l.length c then ((k, v) :: l, .ok) else (l, .exMem)

/-- The entries when a key gets a value, and what is returned. -/
def put [DecidableEq α] (objs : Objects α) (c : DictChunks) (k v : α) (l : List (α × α)) :
    List (α × α) × PmReturn :=
  if OBJ_TYPE_HASHABLE_MAX < objs.type k then (l, .exType)
  else if (lookup objs.compare (toKey objs k) l).isSome then
    (replace objs.compare (toKey objs k) v l, .ok)
  else add c (toKey objs k) v l

/-- The request for the segment of the value does not fail alone. -/
def Paired (n : ℕ) (c : DictChunks) : Prop :=
  n % SEGLIST_OBJS_PER_SEG = 0 → c.keySegment ≠ none → c.valSegment ≠ none

namespace Holds

variable (hs : Holds segs pd ks vs l)

include hs

/-- A dict object only depends on its own segments. -/
theorem congr (hks : ∀ a ∈ ks, segs' a = segs a) (hvs : ∀ a ∈ vs, segs' a = segs a) :
  Holds segs' pd ks vs l
  := ⟨hs.length, fun sl h => (hs.keys sl h).congr hks, fun sl h => (hs.vals sl h).congr hvs,
    hs.filled, hs.nil, hs.apart⟩

/-- A dict object with entries has its seglists. -/
theorem seglists (h : l ≠ []) :
  ∃ keys vals, pd.dKeys = some keys ∧ pd.dVals = some vals ∧
    keys.Holds segs ks (l.map Prod.fst) ∧ vals.Holds segs vs (l.map Prod.snd)
  := by
  obtain ⟨hkeys, hvals⟩ := hs.filled h
  obtain ⟨keys, hkeys⟩ := Option.ne_none_iff_exists'.mp hkeys
  obtain ⟨vals, hvals⟩ := Option.ne_none_iff_exists'.mp hvals
  exact ⟨keys, vals, hkeys, hvals, hs.keys keys hkeys, hs.vals vals hvals⟩

theorem length_eq_zero_iff : pd.length = 0 ↔ l = [] := by
  rw [hs.length, List.length_eq_zero_iff]

/-- The value of a key. -/
theorem getItem_eq [DecidableEq α] (k : α) :
  pd.getItem objs segs k
    = some (match lookup objs.compare (toKey objs k) l with
      | none => .error .exKey
      | some v => .ok (some v))
  := by
  rw [getItem]
  by_cases hl : l = []
  · rw [if_pos (hs.length_eq_zero_iff.mpr hl), hl]
    rfl
  · obtain ⟨keys, vals, hkeys, hvals, hsk, hsv⟩ := hs.seglists hl
    rw [if_neg (fun h => hl (hs.length_eq_zero_iff.mp h)), hkeys, hvals, lookup_eq]
    simp only [Option.bind_eq_bind, Option.bind_some, hsk.findEqual_eq]
    cases hi : (l.map Prod.fst).findIdx? (objs.compare (toKey objs k)) with
    | none => rfl
    | some i =>
        have hlt : i < (l.map Prod.snd).length := by
          rw [List.length_map, ← List.length_map Prod.fst]
          exact (List.findIdx?_eq_some_iff_getElem.mp hi).1
        simp only [Option.bind_some, hsv.getItem_eq hlt, Option.map_some,
          List.getElem?_eq_getElem hlt]

/-- The key comes in: the values and the length stay. -/
theorem insert_key {keys : Seglist} (hkeys : pd.dKeys = some keys) (hnew : New (ks ++ vs) c)
    (hk : Served l c.keySegment) (k : α) :
  ∃ segs' keys', keys.insertItem segs c.keySegment k 0 = some (segs', keys', .ok) ∧
    keys'.Holds segs' (grown ks l c.keySegment) (k :: l.map Prod.fst) ∧
      (∀ sl ∈ pd.dVals, sl.Holds segs' vs (l.map Prod.snd)) ∧
        Within (room (ks ++ vs) c) segs segs'
  := by
  have hserved : Served (l.map Prod.fst) c.keySegment := by
    rw [Served, List.length_map]
    exact hk
  have hgrown : grown ks (l.map Prod.fst) c.keySegment = grown ks l c.keySegment := by
    rw [grown, List.length_map, grown]
  obtain ⟨segs', keys', hinsert, hkeys', hwithin⟩ := (hs.keys keys hkeys).insertItem_eq
    (Nat.zero_le _) hserved (fun a ha hmem => hnew.key a ha (List.mem_append_left _ hmem)) k
  rw [hgrown] at hkeys' hwithin
  refine ⟨segs', keys', hinsert, hkeys', ?_, ?_⟩
  · refine fun sl hsl => (hs.vals sl hsl).congr fun a ha => hwithin a fun hmem => ?_
    rcases mem_grown hmem with hmem | hmem
    · exact hs.apart a hmem ha
    · exact hnew.key a hmem (List.mem_append_right _ ha)
  · refine Within.mono hwithin fun a ha => ?_
    rcases mem_grown ha with ha | ha
    · exact List.mem_append_left _ (List.mem_append_left _ ha)
    · exact List.mem_append_right _ (List.mem_append_left _ (Option.mem_toList.mpr ha))

/-- A key and its value come in. -/
theorem insert_eq {keys vals : Seglist} (hkeys : pd.dKeys = some keys)
    (hvals : pd.dVals = some vals) (hnew : New (ks ++ vs) c) (hk : Served l c.keySegment)
    (hv : Served l c.valSegment) (k v : α) :
  Performed segs (room (ks ++ vs) c) ((k, v) :: l) .ok (pd.insert segs c k v)
  := by
  obtain ⟨segs₁, keys', hinsert, hkeys', hvals₁, hwithin₁⟩ := hs.insert_key hkeys hnew hk k
  have hserved : Served (l.map Prod.snd) c.valSegment := by
    rw [Served, List.length_map]
    exact hv
  have hgrown : grown vs (l.map Prod.snd) c.valSegment = grown vs l c.valSegment := by
    rw [grown, List.length_map, grown]
  obtain ⟨segs', vals', hinsert', hvals', hwithin⟩ := (hvals₁ vals hvals).insertItem_eq
    (Nat.zero_le _) hserved (fun a ha hmem => hnew.val a ha (List.mem_append_right _ hmem)) v
  rw [hgrown] at hvals' hwithin
  have happart : ∀ a ∈ grown ks l c.keySegment, a ∉ grown vs l c.valSegment := by
    intro a ha hmem
    rcases mem_grown ha with ha | ha <;> rcases mem_grown hmem with hmem | hmem
    · exact hs.apart a ha hmem
    · exact hnew.val a hmem (List.mem_append_left _ ha)
    · exact hnew.key a ha (List.mem_append_right _ hmem)
    · exact hnew.apart a ha hmem
  have hsub : grown ks l c.keySegment ++ grown vs l c.valSegment ⊆ room (ks ++ vs) c := by
    intro a ha
    rcases List.mem_append.mp ha with ha | ha <;> rcases mem_grown ha with ha | ha
    · exact List.mem_append_left _ (List.mem_append_left _ ha)
    · exact List.mem_append_right _ (List.mem_append_left _ (Option.mem_toList.mpr ha))
    · exact List.mem_append_left _ (List.mem_append_right _ ha)
    · exact List.mem_append_right _ (List.mem_append_right _ (Option.mem_toList.mpr ha))
  refine ⟨segs', { length := pd.length + 1, dKeys := some keys', dVals := some vals' },
    grown ks l c.keySegment, grown vs l c.valSegment, ?_, ⟨?_, ?_, ?_, ?_, ?_, happart⟩, hsub, ?_⟩
  · rw [insert, hkeys]
    simp only [Option.bind_eq_bind, Option.bind_some, hinsert, if_pos, hvals, hinsert']
  · rw [List.length_cons, ← hs.length]
  · rintro sl ⟨⟩
    exact hkeys'.congr fun a ha => hwithin a (happart a ha)
  · rintro sl ⟨⟩
    exact hvals'
  · exact fun _ => ⟨Option.some_ne_none _, Option.some_ne_none _⟩
  · exact fun hnil => absurd hnil (List.cons_ne_nil _ _)
  · refine hwithin₁.trans (Within.mono hwithin fun a ha => ?_)
    exact hsub (List.mem_append_right _ ha)

/-- Nothing changes when the segment for the key can not be made. -/
theorem insert_error {keys : Seglist} (hkeys : pd.dKeys = some keys)
    (hfull : l.length % SEGLIST_OBJS_PER_SEG = 0) (hnone : c.keySegment = none) (k v : α) :
  pd.insert segs c k v = some (segs, pd, .exMem)
  := by
  have hlength : (l.map Prod.fst).length % SEGLIST_OBJS_PER_SEG = 0 := by
    rw [List.length_map]
    exact hfull
  rw [insert, hkeys, hnone]
  simp only [Option.bind_eq_bind, Option.bind_some,
    (hs.keys keys hkeys).insertItem_error hlength]
  rw [if_neg (by decide), ← hkeys]

/-- The key comes in, the value does not, and the length grows. -/
theorem insert_slips {keys vals : Seglist} (hkeys : pd.dKeys = some keys)
    (hvals : pd.dVals = some vals) (hnew : New (ks ++ vs) c)
    (hfull : l.length % SEGLIST_OBJS_PER_SEG = 0) (hkey : c.keySegment ≠ none)
    (hval : c.valSegment = none) (k v : α) :
  ∃ segs' keys', pd.insert segs c k v
      = some (segs', { length := pd.length + 1, dKeys := some keys', dVals := some vals }, .exMem) ∧
    keys'.Holds segs' (grown ks l c.keySegment) (k :: l.map Prod.fst) ∧
      vals.Holds segs' vs (l.map Prod.snd) ∧ Within (room (ks ++ vs) c) segs segs'
  := by
  obtain ⟨segs', keys', hinsert, hkeys', hvals', hwithin⟩ :=
    hs.insert_key hkeys hnew (fun _ => hkey) k
  have hsv' := hvals' vals hvals
  have hlength : (l.map Prod.snd).length % SEGLIST_OBJS_PER_SEG = 0 := by
    rw [List.length_map]
    exact hfull
  refine ⟨segs', keys', ?_, hkeys', hsv', hwithin⟩
  rw [insert, hkeys]
  simp only [Option.bind_eq_bind, Option.bind_some, hinsert, if_pos, hvals, hval,
    hsv'.insertItem_error hlength]

theorem performed_same (r : PmReturn) : Performed segs (ks ++ vs) l r (some (segs, pd, r)) :=
  ⟨segs, pd, ks, vs, rfl, hs, List.Subset.refl _, Within.refl _ segs⟩

/-- A key and its value come in unless there is no memory. -/
theorem performed_insert (hsome : pd.dKeys ≠ none ∧ pd.dVals ≠ none) (hnew : New (ks ++ vs) c)
    (hpaired : Paired l.length c) (hmade : l.length = 0 → c.keys = true ∧ c.vals = true) (k v : α) :
  Performed segs (room (ks ++ vs) c) (add c k v l).1 (add c k v l).2 (pd.insert segs c k v)
  := by
  obtain ⟨keys, hkeys⟩ := Option.ne_none_iff_exists'.mp hsome.1
  obtain ⟨vals, hvals⟩ := Option.ne_none_iff_exists'.mp hsome.2
  by_cases hserved : l.length % SEGLIST_OBJS_PER_SEG = 0 → c.keySegment ≠ none
  · have hsupplied : Supplied l.length c := ⟨hmade, hserved⟩
    rw [add, if_pos hsupplied]
    exact hs.insert_eq hkeys hvals hnew hserved (fun hfull => hpaired hfull (hserved hfull)) k v
  · have hsupplied : ¬ Supplied l.length c := fun h => hserved h.2
    rw [Classical.not_imp, not_not] at hserved
    rw [add, if_neg hsupplied, hs.insert_error hkeys hserved.1 hserved.2]
    exact (hs.performed_same .exMem).mono (List.subset_append_left _ _)

/-- The value of a key is replaced. -/
theorem performed_replace {vals : Seglist} (hvals : pd.dVals = some vals)
    {same : α → α → Bool} {i : ℕ} (hi : (l.map Prod.fst).findIdx? (same k) = some i) (v : α) :
  Performed segs (ks ++ vs) (replace same k v l) .ok
    ((vals.setItem segs v i).map fun segs => (segs, pd, .ok))
  := by
  have hlt : i < (l.map Prod.snd).length := by
    rw [List.length_map, ← List.length_map Prod.fst]
    exact (List.findIdx?_eq_some_iff_getElem.mp hi).1
  obtain ⟨segs', hset, hsv', hwithin⟩ := (hs.vals vals hvals).setItem_eq hlt v
  obtain ⟨hfst, hsnd⟩ := replace_eq hi v
  have hlength : (replace same k v l).length = l.length := by
    rw [← List.length_map Prod.fst, hfst, List.length_map]
  have hl : l ≠ [] := by
    rintro rfl
    cases hi
  refine ⟨segs', pd, ks, vs, by rw [hset, Option.map_some], ⟨?_, ?_, ?_, ?_, ?_, hs.apart⟩,
    List.Subset.refl _, Within.mono hwithin (List.subset_append_right ks vs)⟩
  · rw [hs.length, hlength]
  · intro sl hsl
    rw [hfst]
    exact (hs.keys sl hsl).congr fun a ha => hwithin a (hs.apart a ha)
  · intro sl hsl
    rw [hsnd]
    obtain rfl := Option.some.inj (hvals.symm.trans hsl)
    exact hsv'
  · exact fun _ => hs.filled hl
  · intro hnil
    rw [hnil, List.length_nil] at hlength
    exact absurd (List.length_eq_zero_iff.mp hlength.symm) hl

omit hs in
/-- The seglists of a dict object without keys are replaced by empty ones. -/
theorem seglists_nil (hs : Holds segs pd ks vs []) (keys vals : Option Seglist)
    (hkeys : ∀ sl ∈ keys, sl.Holds segs [] []) (hvals : ∀ sl ∈ vals, sl.Holds segs [] []) :
  Holds segs { pd with dKeys := keys, dVals := vals } [] [] []
  := ⟨hs.length, hkeys, hvals, fun h => absurd rfl h, fun _ => ⟨rfl, rfl⟩, by simp⟩

/-- The key and the value at an index go out. -/
theorem remove_eq {keys vals : Seglist} (hkeys : pd.dKeys = some keys)
    (hvals : pd.dVals = some vals) {i : ℕ} (hi : i < l.length) :
  ∃ segs₁ segs' keys' vals' r r', keys.removeItem segs i = some (segs₁, keys', r) ∧
    vals.removeItem segs₁ i = some (segs', vals', r') ∧
      Performed segs (ks ++ vs) (l.eraseIdx i) .ok (some (segs',
        { length := pd.length - 1, dKeys := some keys', dVals := some vals' }, .ok))
  := by
  have hfst : i < (l.map Prod.fst).length := by
    rw [List.length_map]
    exact hi
  have hsnd : i < (l.map Prod.snd).length := by
    rw [List.length_map]
    exact hi
  obtain ⟨segs₁, keys', ks', hremove, hkeys', hwithin₁, hks'⟩ :=
    (hs.keys keys hkeys).removeItem_eq hfst
  have hsv : vals.Holds segs₁ vs (l.map Prod.snd) :=
    (hs.vals vals hvals).congr fun a ha => hwithin₁ a fun hmem => hs.apart a hmem ha
  obtain ⟨segs', vals', vs', hremove', hvals', hwithin, hvs'⟩ := hsv.removeItem_eq hsnd
  rw [List.eraseIdx_map] at hkeys' hvals'
  refine ⟨segs₁, segs', keys', vals', _, _, hremove, hremove', segs', _, ks', vs', rfl,
    ⟨?_, ?_, ?_, ?_, ?_, ?_⟩, ?_, ?_⟩
  · rw [List.length_eraseIdx_of_lt hi, hs.length]
  · rintro sl ⟨⟩
    exact hkeys'.congr fun a ha => hwithin a (hs.apart a (hks' ha))
  · rintro sl ⟨⟩
    exact hvals'
  · exact fun _ => ⟨Option.some_ne_none _, Option.some_ne_none _⟩
  · intro hnil
    rw [hnil] at hkeys' hvals'
    exact ⟨hkeys'.nodes_nil, hvals'.nodes_nil⟩
  · exact fun a ha hmem => hs.apart a (hks' ha) (hvs' hmem)
  · exact List.append_subset.mpr ⟨fun a ha => List.mem_append_left _ (hks' ha),
      fun a ha => List.mem_append_right _ (hvs' ha)⟩
  · exact (Within.mono hwithin₁ (List.subset_append_left ks vs)).trans
      (Within.mono hwithin (List.subset_append_right ks vs))

/-- A key is removed with its value. -/
theorem performed_delItem (objs : Objects α) (hsome : pd.dKeys ≠ none) (k : α) :
  Performed segs (ks ++ vs)
    (if (lookup objs.compare k l).isSome then delete objs.compare k l else l)
    (if (lookup objs.compare k l).isSome then .ok else .exKey) (pd.delItem objs segs k)
  := by
  obtain ⟨keys, hkeys⟩ := Option.ne_none_iff_exists'.mp hsome
  rw [delItem, hkeys]
  simp only [Option.bind_eq_bind, Option.bind_some, (hs.keys keys hkeys).findEqual_eq]
  cases hi : (l.map Prod.fst).findIdx? (objs.compare k) with
  | none =>
      have hfound := Option.not_isSome_iff_eq_none.mpr (findIdx_eq_none_iff.mp hi)
      rw [if_neg hfound, if_neg hfound]
      exact hs.performed_same .exKey
  | some i =>
      have hfound := lookup_isSome_of_findIdx hi
      have hlt := (List.findIdx?_eq_some_iff_getElem.mp hi).1
      rw [List.length_map] at hlt
      have hl : l ≠ [] := List.ne_nil_of_length_pos (Nat.zero_lt_of_lt hlt)
      obtain ⟨vals, hvals⟩ := Option.ne_none_iff_exists'.mp (hs.filled hl).2
      obtain ⟨segs₁, segs', keys', vals', r, r', hremove, hremove', h⟩ :=
        hs.remove_eq hkeys hvals hlt
      rw [if_pos hfound, if_pos hfound, delete_eq hi]
      simp only [Option.bind_some, hremove, hvals, hremove']
      exact h

omit hs in
/-- The segments of a seglist are freed. -/
theorem clearSeglist_eq {sl : Option Seglist} {nodes : List ℕ} {s : List α}
    (h : ∀ sl' ∈ sl, sl'.Holds segs nodes s) (hnone : sl = none → nodes = []) :
  clearSeglist segs sl = some nodes
  := by
  cases sl with
  | none => rw [hnone rfl, clearSeglist]
  | some sl =>
      rw [clearSeglist, (h sl rfl).clear_eq]
      rfl

/-- All segments are freed. -/
theorem clear_eq : pd.clear segs = some (new, ks ++ vs) := by
  have hkeys : pd.dKeys = none → ks = [] := by
    intro hnone
    by_contra hne
    exact (hs.filled fun hl => hne (hs.nil hl).1).1 hnone
  have hvals : pd.dVals = none → vs = [] := by
    intro hnone
    by_contra hne
    exact (hs.filled fun hl => hne (hs.nil hl).2).2 hnone
  rw [clear, clearSeglist_eq hs.keys hkeys, clearSeglist_eq hs.vals hvals]
  rfl

section toKey

variable [DecidableEq α]

/-- A key gets a value, or it comes in as a new one when the seglists are made. -/
theorem setItem_insert (objs : Objects α) (c : DictChunks) (k v : α) :
  Performed segs (ks ++ vs) (put objs c k v l).1 (put objs c k v l).2 (pd.setItem objs segs c k v) ∨
    ∃ pd₀, Holds segs pd₀ ks vs l ∧ (pd₀.dKeys ≠ none ∧ pd₀.dVals ≠ none) ∧
      (l.length = 0 → c.keys = true ∧ c.vals = true) ∧
        put objs c k v l = add c (toKey objs k) v l ∧
          pd.setItem objs segs c k v = pd₀.insert segs c (toKey objs k) v
  := by
  rw [setItem, put]
  by_cases htype : OBJ_TYPE_HASHABLE_MAX < objs.type k
  · rw [if_pos htype, if_pos htype]
    exact Or.inl (hs.performed_same .exType)
  · rw [if_neg htype, if_neg htype]
    by_cases hl : l = []
    · -- the seglists are made
      subst hl
      obtain ⟨rfl, rfl⟩ := hs.nil rfl
      have hempty := Seglist.holds_new segs (α := α)
      rw [if_pos (hs.length_eq_zero_iff.mpr rfl), if_neg (by simp [lookup])]
      by_cases hkeys : c.keys = true
      · by_cases hvals : c.vals = true
        · have hs' := seglists_nil hs (some Seglist.new) (some Seglist.new)
            (by rintro _ ⟨⟩; exact hempty) (by rintro _ ⟨⟩; exact hempty)
          rw [if_pos hkeys, if_pos hvals]
          exact Or.inr ⟨_, hs', ⟨Option.some_ne_none _, Option.some_ne_none _⟩,
            fun _ => ⟨hkeys, hvals⟩, rfl, rfl⟩
        · have hsupplied : ¬ Supplied ([] : List (α × α)).length c := fun h => hvals (h.1 rfl).2
          have hs' := seglists_nil hs (some Seglist.new) none
            (by rintro _ ⟨⟩; exact hempty) (by simp)
          rw [if_pos hkeys, if_neg hvals, add, if_neg hsupplied]
          exact Or.inl (hs'.performed_same .exMem)
      · have hsupplied : ¬ Supplied ([] : List (α × α)).length c := fun h => hkeys (h.1 rfl).1
        have hs' := seglists_nil hs none pd.dVals (by simp) hs.vals
        rw [if_neg hkeys, add, if_neg hsupplied]
        exact Or.inl (hs'.performed_same .exMem)
    · obtain ⟨keys, vals, hkeys, hvals, hsk, -⟩ := hs.seglists hl
      rw [if_neg (fun h => hl (hs.length_eq_zero_iff.mp h)), hkeys]
      simp only [Option.bind_eq_bind, Option.bind_some, hsk.findEqual_eq]
      cases hi : (l.map Prod.fst).findIdx? (objs.compare (toKey objs k)) with
      | some i =>
          rw [if_pos (lookup_isSome_of_findIdx hi), hvals]
          exact Or.inl (hs.performed_replace hvals hi v)
      | none =>
          have hfound := Option.not_isSome_iff_eq_none.mpr (findIdx_eq_none_iff.mp hi)
          have hpos : l.length ≠ 0 := fun h => hl (List.length_eq_zero_iff.mp h)
          rw [if_neg hfound]
          exact Or.inr ⟨pd, hs, hs.filled hl, fun h => absurd h hpos, rfl, rfl⟩

/-- A key gets a value unless it is not hashable or there is no memory. -/
theorem performed_setItem (objs : Objects α) (hnew : New (ks ++ vs) c)
    (hpaired : Paired l.length c) (k v : α) :
  Performed segs (room (ks ++ vs) c) (put objs c k v l).1 (put objs c k v l).2
    (pd.setItem objs segs c k v)
  := by
  rcases hs.setItem_insert objs c k v with h | ⟨pd₀, hs₀, hsome, hmade, hput, hset⟩
  · exact h.mono (List.subset_append_left _ _)
  · rw [hput, hset]
    exact hs₀.performed_insert hsome hnew hpaired hmade _ v

/-- A key gets a value, or the request for the segment of its value fails alone.  Only some segments
are used. -/
theorem setItem_cases (objs : Objects α) (hnew : New (ks ++ vs) c) (k v : α) :
  Performed segs (room (ks ++ vs) c) (put objs c k v l).1 (put objs c k v l).2
      (pd.setItem objs segs c k v) ∨
    c.valSegment = none ∧ ∃ segs' pd', pd.setItem objs segs c k v = some (segs', pd', .exMem) ∧
      Within (room (ks ++ vs) c) segs segs'
  := by
  by_cases hpaired : Paired l.length c
  · exact Or.inl (hs.performed_setItem objs hnew hpaired k v)
  · rcases hs.setItem_insert objs c k v with h | ⟨pd₀, hs₀, hsome, -, -, hset⟩
    · exact Or.inl (h.mono (List.subset_append_left _ _))
    · rw [Paired, Classical.not_imp, Classical.not_imp, not_not] at hpaired
      obtain ⟨hfull, hkey, hval⟩ := hpaired
      obtain ⟨keys, hkeys⟩ := Option.ne_none_iff_exists'.mp hsome.1
      obtain ⟨vals, hvals⟩ := Option.ne_none_iff_exists'.mp hsome.2
      obtain ⟨segs', keys', hinsert, -, -, hwithin⟩ :=
        hs₀.insert_slips hkeys hvals hnew hfull hkey hval (toKey objs k) v
      exact Or.inr ⟨hval, segs', _, hset.trans hinsert, hwithin⟩

end toKey

end Holds

end PmDict

end Etaos.Vm
