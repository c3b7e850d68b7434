import Etaos.Vm.MarkSpec

/-!
# Memories with the same fields

What the collector reads of an object is in its fields, behind the first byte of the descriptor,
which holds the mark.  A part of the objects that is closed under references is typed in every
memory with the same fields.
-/

namespace Etaos.Vm

open Marking

/-- The objects of `U` have the same fields in both memories. -/
def Memory.SameFields (U : Finset ℕ) (m m' : Memory) : Prop :=
  ∀ p ∈ U, ∀ c, p < c → c < p + m.layout p → m' c = m c

/-- The objects of `U` refer to objects of `U` only. -/
def Memory.ClosedIn (m : Memory) (nativeframe : ℕ) (U : Finset ℕ) : Prop :=
  ∀ p ∈ U, ∀ q ∈ m.succ nativeframe p, q ∈ U

variable {m m' : Memory} {nativeframe p q c : ℕ} {U V : Finset ℕ} {ext : ℕ → ℕ}

/-- The descriptor is part of every object. -/
theorem Memory.two_le_layout : 2 ≤ m.layout p := by
  rw [Memory.layout]
  split <;> omega

namespace Memory.SameFields

/-- A byte behind the first one of an object and within its fields. -/
theorem apply (hm : SameFields U m m') (hp : p ∈ U) (hc : p < c) (hc' : c < p + m.layout p) :
  m' c = m c
  := hm p hp c hc hc'

/-- A field of two bytes. -/
theorem word (hm : SameFields U m m') (hp : p ∈ U) (hc : p < c) (hc' : c + 2 ≤ p + m.layout p) :
  m'.word c = m.word c
  := word_congr (hm.apply hp hc (by omega)) (hm.apply hp (by omega) (by omega))

/-- A pointer that may be null. -/
theorem ptr (hm : SameFields U m m') (hp : p ∈ U) (hc : p < c) (hc' : c + 2 ≤ p + m.layout p) :
  m'.ptr c = m.ptr c
  := ptr_congr (hm.word hp hc hc')

/-- A pointer that is not looked at as null. -/
theorem addr (hm : SameFields U m m') (hp : p ∈ U) (hc : p < c) (hc' : c + 2 ≤ p + m.layout p) :
  m'.addr c = m.addr c
  := congrArg BitVec.toNat (hm.word hp hc hc')

/-- A length. -/
theorem count (hm : SameFields U m m') (hp : p ∈ U) (hc : p < c)
    (hc' : c + 2 ≤ p + m.layout p) :
  m'.count c = m.count c
  := by
  rw [Memory.count, Memory.count, hm.word hp hc hc']

/-- The type is in the second byte of the descriptor, which the fields include. -/
theorem type (hm : SameFields U m m') (hp : p ∈ U) : m'.type p = m.type p := by
  have := two_le_layout (m := m) (p := p)
  exact type_congr (hm.apply hp (by omega) (by omega))

/-- The number of locals of a frame. -/
theorem numLocals (hm : SameFields U m m') (hp : p ∈ U) (hc : 18 ≤ m.layout p) :
  m'.numLocals p = m.numLocals p
  := by
  rw [Memory.numLocals, Memory.numLocals, hm.addr hp (by omega) (by omega)]

/-- The size of the fields depends on the type and on the number of locals only. -/
theorem layout (hm : SameFields U m m') (hp : p ∈ U) : m'.layout p = m.layout p := by
  have hlayout : m.layout p = m.layout p := rfl
  conv_rhs at hlayout => rw [Memory.layout]
  rw [Memory.layout, Memory.layout, hm.type hp]
  cases htype : m.type p with
  | none => rfl
  | some t =>
      rw [htype] at hlayout
      cases t with
      | tup =>
          dsimp only at hlayout ⊢
          rw [hm.count hp (by omega) (by omega)]
      | frm =>
          dsimp only at hlayout ⊢
          rw [hm.numLocals hp (by omega)]
      | nfm =>
          dsimp only at hlayout ⊢
          rw [hm.apply hp (by omega) (by omega)]
      | _ => rfl

/-- The pointers at some offsets. -/
theorem fields (hm : SameFields U m m') (hp : p ∈ U) {offsets : List ℕ}
    (hk : ∀ k ∈ offsets, 0 < k ∧ k + 2 ≤ m.layout p) :
  m'.fields p offsets = m.fields p offsets
  := by
  apply List.map_congr_left
  intro k hkmem
  have := hk k hkmem
  rw [hm.ptr hp (by omega) (by omega)]

/-- The references of a seglist. -/
theorem segRefs (hm : SameFields U m m') :
    ∀ {n i pobj : ℕ}, (i % SEGLIST_OBJS_PER_SEG ≠ 0 → pobj ∈ U ∧ m.type pobj = some .seg) →
      (∀ r ∈ m.segRefs n i pobj, r.Ok m U) → m'.segRefs n i pobj = m.segRefs n i pobj
  | 0, _, _, _, _ => rfl
  | n + 1, i, pobj, hseg, hok => by
      have hpobj : pobj ∈ U ∧ m.type pobj = some .seg := by
        by_cases hi : i % SEGLIST_OBJS_PER_SEG = 0
        · exact hok (.seg pobj) (by simp [Memory.segRefs, hi])
        · exact hseg hi
      have hlayout : m.layout pobj = 20 := by rw [Memory.layout, hpobj.2]
      have hlt : i % SEGLIST_OBJS_PER_SEG < 8 := Nat.mod_lt _ (by decide)
      have hitem := hm.ptr (c := pobj + 2 + 2 * (i % SEGLIST_OBJS_PER_SEG)) hpobj.1
        (by omega) (by omega)
      have hnext := hm.ptr (c := pobj + 18) hpobj.1 (by omega) (by omega)
      rw [Memory.segRefs, List.forall_mem_cons] at hok
      rw [Memory.segRefs, Memory.segRefs, hitem, hnext]
      congr 1
      by_cases hi : i % SEGLIST_OBJS_PER_SEG = 0
      · rw [if_pos hi, if_pos hi]
        rw [if_pos hi, List.forall_mem_cons] at hok
        rw [segRefs hm (fun _ => hpobj) hok.2.2]
      · rw [if_neg hi, if_neg hi]
        rw [if_neg hi] at hok
        by_cases hlast : i % SEGLIST_OBJS_PER_SEG = SEGLIST_OBJS_PER_SEG - 1
        · rw [if_pos hlast, if_pos hlast]
          rw [if_pos hlast] at hok
          cases hq : m.ptr (pobj + 18) with
          | none => rfl
          | some q =>
              rw [hq] at hok
              apply segRefs hm _ hok.2
              intro hsucc
              rw [SEGLIST_OBJS_PER_SEG] at hlast hsucc
              omega
        · rw [if_neg hlast, if_neg hlast]
          rw [if_neg hlast] at hok
          exact segRefs hm (fun _ => hpobj) hok.2

end Memory.SameFields

namespace Memory.Typed

/-- A reference of an object of a part that is closed leads into the part. -/
theorem refs_closed (ht : m.Typed nativeframe ext U) (hV : V ⊆ U)
    (hclosed : m.ClosedIn nativeframe V) (hp : p ∈ V) :
  ∀ r ∈ m.refs nativeframe p, r.Ok m V
  := by
  intro r hr
  have hok := ht.refs p (hV hp) r hr
  have hmem (q : ℕ) (hq : r.target = some q) : q ∈ V :=
    hclosed p hp q (List.mem_filterMap.mpr ⟨r, hr, hq⟩)
  match r with
  | .item none => trivial
  | .item (some q) => exact ⟨hmem q rfl, hok.2⟩
  | .seg q => exact ⟨hmem q rfl, hok.2⟩

/-- What a field refers to is in the part. -/
theorem field_mem (hclosed : m.ClosedIn nativeframe V) (hp : p ∈ V) {k : ℕ}
    (hfield : Ref.item (m.ptr (p + k)) ∈ m.refs nativeframe p) (hpos : 0 < m.addr (p + k)) :
  m.addr (p + k) ∈ V
  := by
  have hptr : m.ptr (p + k) = some (m.addr (p + k)) := by
    rw [ptr, if_neg]
    · rfl
    · intro hzero
      rw [addr, hzero] at hpos
      exact absurd hpos (lt_irrefl 0)
  apply hclosed p hp
  exact List.mem_filterMap.mpr ⟨_, hfield, hptr⟩

/-- The function of a frame and the code of the function are in the part. -/
theorem frame_closed (ht : m.Typed nativeframe ext U) (hU : ∀ q ∈ U, 0 < q) (hV : V ⊆ U)
    (hclosed : m.ClosedIn nativeframe V) (hp : p ∈ V) (heq : m.type p = some .frm) :
  m.addr (p + 4) ∈ V ∧ m.addr (m.addr (p + 4) + 2) ∈ V
  := by
  obtain ⟨hfunc, hfunctype, hco, -⟩ := ht.frame p (hV hp) heq
  have hmem : m.addr (p + 4) ∈ V := by
    apply field_mem hclosed hp _ (hU _ hfunc)
    rw [Memory.refs, heq]
    simp
  use hmem
  apply field_mem hclosed hmem _ (hU _ hco)
  rcases hfunctype with htype | htype <;>
  · rw [Memory.refs, htype]
    simp

variable (ht : m.Typed nativeframe ext U) (hU : ∀ q ∈ U, 0 < q) (hV : V ⊆ U)
  (hclosed : m.ClosedIn nativeframe V) (hm : SameFields V m m')

include ht hU hV hclosed hm

/-- An object of the part has the same references. -/
theorem refs_sameFields (hp : p ∈ V) : m'.refs nativeframe p = m.refs nativeframe p := by
  have hlayout : m.layout p = m.layout p := rfl
  have hok := ht.refs_closed hV hclosed hp
  conv_rhs at hlayout => rw [Memory.layout]
  rw [Memory.refs] at hok
  rw [Memory.refs, Memory.refs, hm.type hp]
  cases htype : m.type p with
  | none => rfl
  | some t =>
      rw [htype] at hlayout hok
      have hfields {offsets : List ℕ} (hk : ∀ k ∈ offsets, 0 < k ∧ k + 2 ≤ m.layout p) :=
        hm.fields hp hk
      cases t with
      | tup =>
          dsimp only at hlayout ⊢
          rw [hm.count hp (by omega) (by omega), hfields]
          intro k hk
          obtain ⟨i, hi, rfl⟩ := List.mem_map.mp hk
          rw [List.mem_reverse, List.mem_range] at hi
          omega
      | cob =>
          dsimp only at hlayout ⊢
          rw [hm.apply hp (by omega) (by omega), hfields (by simp; omega),
            hfields (by simp; omega), hfields (by simp; omega)]
      | frm =>
          obtain ⟨hfunc, hco⟩ := ht.frame_closed hU hV hclosed hp htype
          obtain ⟨-, hfunctype, -, hcotype⟩ := ht.frame p (hV hp) htype
          have hfunclayout : m.layout (m.addr (p + 4)) = 12 := by
            rcases hfunctype with h | h <;> rw [Memory.layout, h]
          have hcolayout : m.layout (m.addr (m.addr (p + 4) + 2)) = 22 := by
            rw [Memory.layout, hcotype]
          dsimp only at hlayout ⊢
          rw [hm.addr hp (c := p + 4) (by omega) (by omega),
            hm.addr hfunc (by omega) (by omega), hm.apply hco (by omega) (by omega),
            hfields (by simp; omega), hfields (by simp; omega), hm.numLocals hp (by omega),
            hfields]
          intro k hk
          obtain ⟨i, hi, rfl⟩ := List.mem_map.mp hk
          rw [List.mem_range] at hi
          omega
      | sgl =>
          dsimp only at hlayout hok ⊢
          rw [hm.count hp (by omega) (by omega), hm.addr hp (by omega) (by omega)]
          exact hm.segRefs (by simp) hok
      | nfm =>
          obtain rfl := ht.native p (hV hp) htype
          dsimp only at hlayout ⊢
          rw [hm.apply hp (c := p + 8) (by omega) (by omega),
            hm.apply hp (c := p + 9) (by omega) (by omega), hfields (by simp; omega), hfields]
          intro k hk
          obtain ⟨i, hi, rfl⟩ := List.mem_map.mp hk
          rw [List.mem_range] at hi
          omega
      | lst | dic | mod | fxn | cli | mth | clo | blk | sqi | thr | bya =>
          exact hfields (by dsimp only at hlayout; simp; omega)
      | _ => rfl

/-- The part is typed in the other memory. -/
theorem sameFields {ext' : ℕ → ℕ} (hext : ∀ p ∈ V, ext' p = ext p) :
  m'.Typed nativeframe ext' V
  := by
  constructor
  · intro p hp q hq
    rw [hext p hp]
    exact ht.solid p (hV hp) q (hV hq)
  · intro p hp
    rw [hext p hp, hm.layout hp]
    exact ht.layout p (hV hp)
  · intro p hp
    rw [hm.type hp]
    exact ht.type p (hV hp)
  · intro p hp r hr
    rw [ht.refs_sameFields hU hV hclosed hm hp] at hr
    have hok := ht.refs_closed hV hclosed hp r hr
    match r with
    | .item none => trivial
    | .item (some q) => exact ⟨hok.1, by rw [hm.type hok.1]; exact hok.2⟩
    | .seg q => exact ⟨hok.1, by rw [hm.type hok.1]; exact hok.2⟩
  · intro p hp htype
    rw [hm.type hp] at htype
    obtain ⟨hfunc, hco⟩ := ht.frame_closed hU hV hclosed hp htype
    obtain ⟨-, hfunctype, -, hcotype⟩ := ht.frame p (hV hp) htype
    have hfunclayout : m.layout (m.addr (p + 4)) = 12 := by
      rcases hfunctype with h | h <;> rw [Memory.layout, h]
    have hlayout : 18 ≤ m.layout p := by
      rw [Memory.layout, htype]
      dsimp only
      omega
    rw [hm.addr hp (c := p + 4) (by omega) (by omega), hm.type hfunc,
      hm.addr hfunc (by omega) (by omega), hm.type hco]
    exact ⟨hfunc, hfunctype, hco, hcotype⟩
  · intro p hp htype
    rw [hm.type hp] at htype
    exact ht.native p (hV hp) htype

end Memory.Typed

end Etaos.Vm
