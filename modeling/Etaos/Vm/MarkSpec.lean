import Etaos.Vm.Mark
import Etaos.Library.Marking

/-!
# The mark phase marks what can be reached

The references of the objects are a graph.  When every object has room for its fields and refers
to objects, marking the roots puts the mark on the objects that can be reached from them, and
changes nothing else in the memory.
-/

set_option linter.style.nameCheck false

namespace Etaos.Vm

open Marking

/-- A reference: to an object that is marked with what it refers to, or to a segment. -/
inductive Ref
  | item (p : Option ℕ)
  | seg (p : ℕ)

/-- The object that a reference leads to. -/
def Ref.target : Ref → Option ℕ
  | .item p => p
  | .seg p => some p

@[simp]
theorem Ref.targets_item (p : Option ℕ) (l : List Ref) :
  (Ref.item p :: l).filterMap Ref.target = p.toList ++ l.filterMap Ref.target
  := by
  cases p <;> rfl

@[simp]
theorem Ref.targets_seg (p : ℕ) (l : List Ref) :
  (Ref.seg p :: l).filterMap Ref.target = p :: l.filterMap Ref.target
  := rfl

namespace Memory

/-- The references of a seglist from the index `i` on: the items and the segments. -/
def segRefs (m : Memory) : ℕ → ℕ → ℕ → List Ref
  | 0, _, _ => []
  | n + 1, i, pobj =>
      .item (m.ptr (pobj + 2 + 2 * (i % SEGLIST_OBJS_PER_SEG))) ::
        if i % SEGLIST_OBJS_PER_SEG = 0 then .seg pobj :: m.segRefs n (i + 1) pobj
        else if i % SEGLIST_OBJS_PER_SEG = SEGLIST_OBJS_PER_SEG - 1 then
          match m.ptr (pobj + 18) with
          | none => []
          | some q => m.segRefs n (i + 1) q
        else m.segRefs n (i + 1) pobj

variable (m : Memory) (nativeframe p : ℕ)

/-- The references in the fields at some offsets. -/
def fields (offsets : List ℕ) : List Ref :=
  offsets.map fun k => .item (m.ptr (p + k))

@[simp]
theorem fields_cons (k : ℕ) (offsets : List ℕ) :
  m.fields p (k :: offsets) = .item (m.ptr (p + k)) :: m.fields p offsets
  := rfl

/-- The number of the locals and the values on the stack of a frame. -/
def numLocals : ℕ :=
  (m.addr (p + 15) - (p + 18) + 1) / 2

/-- The references of an object. -/
def refs : List Ref :=
  match m.type p with
  | some .tup => m.fields p ((List.range (m.count (p + 2))).reverse.map fun i => 4 + 2 * i)
  | some .lst => m.fields p [4]
  | some .dic => m.fields p [4, 6]
  | some .cob =>
      m.fields p [4, 6] ++ (if m (p + 19) = MEMSPACE_RAM then m.fields p [2] else []) ++
        m.fields p [16]
  | some .mod | some .fxn => m.fields p [2, 4, 6, 8, 10]
  | some .cli => m.fields p [2, 4]
  | some .mth => m.fields p [2, 4, 6]
  | some .clo => m.fields p [2, 4]
  | some .frm =>
      (if m (m.addr (m.addr (p + 4) + 2) + 21) &&& CO_GENERATOR = 0 then m.fields p [2] else [])
        ++ m.fields p [4, 9, 11, 13]
        ++ m.fields p ((List.range (m.numLocals p)).map fun i => 18 + 2 * i)
  | some .blk => m.fields p [7]
  | some .sgl => m.segRefs (m.count (p + 2)) 0 (m.addr (p + 4))
  | some .sqi => m.fields p [2]
  | some .thr => m.fields p [2]
  | some .nfm =>
      if m (nativeframe + 8) = 0 then []
      else
        m.fields nativeframe [2, 4, 6] ++
          m.fields nativeframe
            ((List.range (m (nativeframe + 9)).toNat).map fun i => 10 + 2 * i)
  | some .bya => m.fields p [4]
  | _ => []

/-- The objects that an object refers to. -/
def succ : List ℕ :=
  (m.refs nativeframe p).filterMap Ref.target

/-- The number of bytes that the fields of an object take, as far as the collector reads them. -/
def layout : ℕ :=
  match m.type p with
  | some .tup => 4 + 2 * m.count (p + 2)
  | some .lst | some .cli | some .clo | some .sgl | some .bya => 6
  | some .dic | some .mth => 8
  | some .cob => 22
  | some .mod | some .fxn => 12
  | some .frm => 18 + 2 * m.numLocals p
  | some .blk => 9
  | some .seg => 20
  | some .sqi | some .thr => 4
  | some .nfm => 10 + 2 * (m (p + 9)).toNat
  | _ => 2

end Memory

/-- A reference leads to an object, and to a segment if that is expected. -/
def Ref.Ok (m : Memory) (U : Finset ℕ) : Ref → Prop
  | .item none => True
  | .item (some q) => q ∈ U ∧ m.type q ≠ some .seg
  | .seg q => q ∈ U ∧ m.type q = some .seg

instance (m : Memory) (U : Finset ℕ) : (r : Ref) → Decidable (r.Ok m U)
  | .item none => inferInstanceAs (Decidable True)
  | .item (some _) => inferInstanceAs (Decidable (_ ∧ _))
  | .seg _ => inferInstanceAs (Decidable (_ ∧ _))

/-- The objects are those of `U`, with `ext p` bytes each.  Every object has a type and room for
its fields, and what it refers to are objects; a frame has a function, and that has code. -/
structure Memory.Typed (m : Memory) (nativeframe : ℕ) (ext : ℕ → ℕ) (U : Finset ℕ) : Prop where
  solid : ∀ p ∈ U, ∀ q ∈ U, q ≤ p ∨ p + ext p ≤ q
  layout : ∀ p ∈ U, 2 ≤ ext p ∧ m.layout p ≤ ext p
  type : ∀ p ∈ U, m.type p ≠ none ∧ m.type p ≠ some .cim ∧ m.type p ≠ some .nim
  refs : ∀ p ∈ U, ∀ r ∈ m.refs nativeframe p, r.Ok m U
  frame : ∀ p ∈ U, m.type p = some .frm →
    m.addr (p + 4) ∈ U ∧ (m.type (m.addr (p + 4)) = some .mod ∨
      m.type (m.addr (p + 4)) = some .fxn) ∧ m.addr (m.addr (p + 4) + 2) ∈ U ∧
        m.type (m.addr (m.addr (p + 4) + 2)) = some .cob
  native : ∀ p ∈ U, m.type p = some .nfm → p = nativeframe

/-! ### The memory with some marks -/

namespace Memory

/-- The low byte of a descriptor with a mark. -/
def markByte (g : Bool) (b : BitVec 8) : BitVec 8 :=
  if g then b ||| 1 else b &&& ~~~1

/-- The memory when the objects of `S` have the mark `g`. -/
def paint (g : Bool) (S : Finset ℕ) (m : Memory) : Memory :=
  fun c => if c ∈ S then markByte g (m c) else m c

variable {m m' : Memory} {g : Bool} {S : Finset ℕ} {p c : ℕ}

theorem markByte_markByte (g : Bool) (b : BitVec 8) : markByte g (markByte g b) = markByte g b := by
  cases g
  · simp [markByte, BitVec.and_assoc]
  · simp [markByte, BitVec.or_assoc]

private theorem mask_eq : OD_MARK_MASK = (0#8 ++ 1#8 : BitVec 16) := by decide

/-- The mark is in the low byte of a descriptor. -/
theorem setGcval_append (hi lo : BitVec 8) (g : Bool) :
  Desc.setGcval (hi ++ lo : BitVec 16) g = (hi ++ markByte g lo : BitVec 16)
  := by
  cases g
  · have hhi : hi &&& ~~~0#8 = hi := by rw [BitVec.not_zero, BitVec.and_allOnes]
    simp only [Desc.setGcval, mask_eq, markByte, Bool.false_eq_true, if_false]
    rw [BitVec.not_append, BitVec.and_append, hhi]
    rfl
  · simp only [Desc.setGcval, mask_eq, markByte, if_true]
    rw [BitVec.or_append, BitVec.or_zero]
    rfl

theorem gcval_append (hi lo : BitVec 8) :
  Desc.gcval (hi ++ lo : BitVec 16) = decide (lo &&& 1 ≠ 0)
  := by
  have happend (b : BitVec 8) : (0#8 ++ b : BitVec 16) = 0 ↔ b = 0 := by
    have htoNat : (0#8 ++ b : BitVec 16).toNat = b.toNat := by
      rw [BitVec.toNat_append]
      simp
    constructor
    · intro hzero
      apply BitVec.eq_of_toNat_eq
      rw [← htoNat, hzero]
      rfl
    · rintro rfl
      rfl
  simp only [Desc.gcval, mask_eq]
  rw [BitVec.and_append, BitVec.and_zero, decide_eq_decide, not_iff_not]
  exact happend (lo &&& 1)

theorem setMark_apply (m : Memory) (p c : ℕ) :
  m.setMark p g c = if c = p then markByte g (m p) else m c
  := by
  have hword : (m.desc p).setGcval g = m (p + 1) ++ markByte g (m p) := setGcval_append _ _ _
  rw [setMark, setDesc, setWord, hword]
  have hlow : (m (p + 1) ++ markByte g (m p) : BitVec 16).extractLsb' 0 8 = markByte g (m p) := by
    ext i hi
    simp only [BitVec.getElem_extractLsb', BitVec.getLsbD_append]
    grind
  have hhigh : (m (p + 1) ++ markByte g (m p) : BitVec 16).extractLsb' 8 8 = m (p + 1) := by
    ext i hi
    simp only [BitVec.getElem_extractLsb', BitVec.getLsbD_append]
    grind
  rw [hlow, hhigh]
  simp only [Function.update_apply]
  grind

/-- The object that gets a mark is one more with the mark. -/
theorem setMark_paint : (m.paint g S).setMark p g = m.paint g (insert p S) := by
  funext c
  rw [setMark_apply]
  by_cases hc : c = p
  · rw [if_pos hc, hc, paint, paint, if_pos (Finset.mem_insert_self p S)]
    split
    · rw [markByte_markByte]
    · rfl
  · rw [if_neg hc, paint, paint]
    simp [hc]

@[simp]
theorem paint_empty : m.paint g ∅ = m := by
  funext c
  simp [paint]

theorem paint_of_not_mem (hc : c ∉ S) : m.paint g S c = m c := if_neg hc

/-- The mark of an object. -/
theorem gcval_paint (hp : p ∈ S ∨ (m.desc p).gcval = !g) :
  ((m.paint g S).desc p).gcval = g ↔ p ∈ S
  := by
  have hbyte (b : BitVec 8) : decide (markByte g b &&& 1 ≠ 0) = g := by
    cases g
    · simp [markByte, BitVec.and_assoc]
    · have hone : (b ||| 1) &&& 1 = 1 := by
        ext i hi
        simp only [BitVec.getElem_and, BitVec.getElem_or]
        grind
      rw [markByte, if_pos rfl, hone]
      rfl
  rw [desc, word, gcval_append, paint]
  rw [desc, word, gcval_append] at hp
  by_cases hpS : p ∈ S
  · rw [if_pos hpS, hbyte]
    simp [hpS]
  · rw [if_neg hpS, hp.resolve_left hpS]
    simp [hpS]

/-- The type of an object is in the high byte of its descriptor. -/
theorem type_congr (h : m' (p + 1) = m (p + 1)) : m'.type p = m.type p := by
  have htype (m : Memory) : (m.desc p).type = (m (p + 1)).toNat / 8 := by
    have happend : (m.desc p).toNat = (m (p + 1)).toNat * 2 ^ 8 + (m p).toNat := by
      rw [desc, word, BitVec.toNat_append, ← Nat.shiftLeft_add_eq_or_of_lt (m p).isLt,
        Nat.shiftLeft_eq]
    have := (m p).isLt
    rw [Desc.type, OD_TYPE_SHIFT, BitVec.toNat_ushiftRight, Nat.shiftRight_eq_div_pow, happend]
    omega
  rw [type, type, htype, htype, h]

end Memory

section Sim

variable {m : Memory} {nativeframe p q fuel : ℕ} {g : Bool} {U S S' : Finset ℕ} {ext : ℕ → ℕ}

namespace Memory.Typed

/-- A byte of an object behind the first one does not change with the marks. -/
theorem paint_apply (ht : m.Typed nativeframe ext U) (hp : p ∈ U) (hS : S ⊆ U) {c : ℕ}
    (hc : p < c) (hc' : c < p + ext p) :
  m.paint g S c = m c
  := by
  apply Memory.paint_of_not_mem
  intro hmem
  have := ht.solid p hp c (hS hmem)
  omega

theorem paint_word (ht : m.Typed nativeframe ext U) (hp : p ∈ U) (hS : S ⊆ U) {c : ℕ}
    (hc : p < c) (hc' : c + 2 ≤ p + ext p) :
  (m.paint g S).word c = m.word c
  := by
  apply Memory.word_congr
  · apply ht.paint_apply hp hS hc (by omega)
  · apply ht.paint_apply hp hS (by omega) (by omega)

theorem paint_ptr (ht : m.Typed nativeframe ext U) (hp : p ∈ U) (hS : S ⊆ U) {c : ℕ}
    (hc : p < c) (hc' : c + 2 ≤ p + ext p) :
  (m.paint g S).ptr c = m.ptr c
  := Memory.ptr_congr (ht.paint_word hp hS hc hc')

theorem paint_addr (ht : m.Typed nativeframe ext U) (hp : p ∈ U) (hS : S ⊆ U) {c : ℕ}
    (hc : p < c) (hc' : c + 2 ≤ p + ext p) :
  (m.paint g S).addr c = m.addr c
  := congrArg BitVec.toNat (ht.paint_word hp hS hc hc')

theorem paint_count (ht : m.Typed nativeframe ext U) (hp : p ∈ U) (hS : S ⊆ U) {c : ℕ}
    (hc : p < c) (hc' : c + 2 ≤ p + ext p) :
  (m.paint g S).count c = m.count c
  := by
  rw [Memory.count, Memory.count, ht.paint_word hp hS hc hc']

theorem paint_type (ht : m.Typed nativeframe ext U) (hp : p ∈ U) (hS : S ⊆ U) :
  (m.paint g S).type p = m.type p
  := by
  have := (ht.layout p hp).1
  apply Memory.type_congr
  apply ht.paint_apply hp hS (by omega) (by omega)

end Memory.Typed

/-- From the memory with the marks `S`, a part of the marking does what visits to the nodes of `l`
do to the marks. -/
def Sim (m : Memory) (nativeframe : ℕ) (g : Bool) (U : Finset ℕ) (fuel : ℕ) (f : Memory → Marked)
    (l : List ℕ) : Prop :=
  ∀ S S', S ⊆ U → visitAll (m.succ nativeframe) fuel l S = some S' →
    S' ⊆ U ∧ f (m.paint g S) = some (m.paint g S', .ok)

namespace Sim

variable {f f' : Memory → Marked} {l l' : List ℕ}

theorem nil : Sim m nativeframe g U fuel (fun m => some (m, .ok)) [] := by
  intro S S' hS hvisit
  obtain rfl := Option.some.inj hvisit
  exact ⟨hS, rfl⟩

theorem andThen (hf : Sim m nativeframe g U fuel f l) (hf' : Sim m nativeframe g U fuel f' l') :
  Sim m nativeframe g U fuel (fun m => (f m).andThen f') (l ++ l')
  := by
  intro S S' hS hvisit
  rw [visitAll_append, Option.bind_eq_some_iff] at hvisit
  obtain ⟨S₁, hvisit₁, hvisit₂⟩ := hvisit
  obtain ⟨hS₁, heq₁⟩ := hf S S₁ hS hvisit₁
  obtain ⟨hS', heq'⟩ := hf' S₁ S' hS₁ hvisit₂
  use hS'
  dsimp only
  rw [heq₁]
  exact heq'

/-- What is read from the memory does not depend on the marks. -/
theorem congr (hf : Sim m nativeframe g U fuel f l)
    (heq : ∀ S ⊆ U, f' (m.paint g S) = f (m.paint g S)) :
  Sim m nativeframe g U fuel f' l
  := by
  intro S S' hS hvisit
  rw [heq S hS]
  exact hf S S' hS hvisit

/-- A part of the references is visited under a condition on what is read. -/
theorem ite {c : Memory → Prop} [DecidablePred c] {r r' : List Ref}
    (hread : ∀ S ⊆ U, c (m.paint g S) ↔ c m)
    (hf : c m → Sim m nativeframe g U fuel f (r.filterMap Ref.target))
    (hf' : ¬ c m → Sim m nativeframe g U fuel f' (r'.filterMap Ref.target)) :
  Sim m nativeframe g U fuel (fun m => if c m then f m else f' m)
    ((if c m then r else r').filterMap Ref.target)
  := by
  by_cases hc : c m
  · rw [if_pos hc]
    apply (hf hc).congr
    intro S hS
    exact if_pos ((hread S hS).mpr hc)
  · rw [if_neg hc]
    apply (hf' hc).congr
    intro S hS
    exact if_neg (fun hc' => hc ((hread S hS).mp hc'))

/-- A segment gets a mark. -/
theorem seg (hq : q ∈ U) (hseg : m.type q = some .seg) :
  Sim m nativeframe g U fuel (fun m => some (m.setMark q g, .ok)) [q]
  := by
  intro S S' hS hvisit
  have hsucc : m.succ nativeframe q = [] := by
    rw [Memory.succ, Memory.refs, hseg]
    rfl
  have hS' : S' = insert q S := by
    rw [visitAll_cons, Option.bind_eq_some_iff] at hvisit
    obtain ⟨S₁, hvisit, hnil⟩ := hvisit
    obtain rfl := Option.some.inj hnil
    cases fuel with
    | zero => cases hvisit
    | succ fuel =>
        rw [visit_succ, hsucc] at hvisit
        split at hvisit
        · rename_i hmem
          obtain rfl := Option.some.inj hvisit
          exact (Finset.insert_eq_of_mem hmem).symm
        · exact (Option.some.inj hvisit).symm
  rw [hS']
  dsimp only
  rw [Memory.setMark_paint]
  exact ⟨Finset.insert_subset hq hS, rfl⟩

end Sim

section

variable {mark : Option ℕ → Memory → Marked}

/-- The recursive calls visit the objects that they are made for. -/
def SimMark (m : Memory) (nativeframe : ℕ) (g : Bool) (U : Finset ℕ) (fuel : ℕ)
    (mark : Option ℕ → Memory → Marked) : Prop :=
  (∀ m', mark none m' = some (m', .ok)) ∧
    ∀ q ∈ U, m.type q ≠ some .seg → Sim m nativeframe g U fuel (mark (some q)) [q]

/-- The reference in a field is visited. -/
theorem SimMark.ptr (hmark : SimMark m nativeframe g U fuel mark)
    (ht : m.Typed nativeframe ext U) (hp : p ∈ U) {c : ℕ} (hc : p < c) (hc' : c + 2 ≤ p + ext p)
    (hok : (Ref.item (m.ptr c)).Ok m U) :
  Sim m nativeframe g U fuel (fun m => mark (m.ptr c) m) (m.ptr c).toList
  := by
  have hread : ∀ S ⊆ U, (fun m => mark (m.ptr c) m) (m.paint g S)
      = mark (m.ptr c) (m.paint g S) := by
    intro S hS
    dsimp only
    rw [ht.paint_ptr hp hS hc hc']
  apply Sim.congr _ hread
  cases hq : m.ptr c with
  | none => exact Sim.nil.congr fun S _ => hmark.1 _
  | some q =>
      rw [hq] at hok
      exact hmark.2 q hok.1 hok.2

/-- The references in some fields are visited. -/
theorem SimMark.fields (hmark : SimMark m nativeframe g U fuel mark)
    (ht : m.Typed nativeframe ext U) (hp : p ∈ U) :
    ∀ {offsets : List ℕ}, (∀ k ∈ offsets, 0 < k ∧ k + 2 ≤ ext p) →
      (∀ r ∈ m.fields p offsets, r.Ok m U) →
        Sim m nativeframe g U fuel (markFields mark (offsets.map fun k => p + k))
          ((m.fields p offsets).filterMap Ref.target)
  | [], _, _ => Sim.nil
  | k :: offsets, hk, hok => by
      rw [List.forall_mem_cons] at hk
      rw [Memory.fields_cons, List.forall_mem_cons] at hok
      have hfirst := hmark.ptr ht hp (c := p + k) (by omega) (by omega) hok.1
      have hrest := SimMark.fields hmark ht hp hk.2 hok.2
      rw [Memory.fields_cons, Ref.targets_item]
      exact hfirst.andThen hrest

/-- The locals and the stack of a frame are visited from the index `i` on. -/
theorem SimMark.locals (hmark : SimMark m nativeframe g U fuel mark)
    (ht : m.Typed nativeframe ext U) (hp : p ∈ U) (hlayout : 18 + 2 * m.numLocals p ≤ ext p) :
    ∀ {k i : ℕ}, m.numLocals p - i < k →
      (∀ r ∈ m.fields p ((List.range' i (m.numLocals p - i)).map fun i => 18 + 2 * i), r.Ok m U) →
        Sim m nativeframe g U fuel (markLocals mark p k (p + 18 + 2 * i))
          ((m.fields p ((List.range' i (m.numLocals p - i)).map fun i => 18 + 2 * i)).filterMap
            Ref.target)
  | 0, i, hk, _ => absurd hk (Nat.not_lt_zero _)
  | k + 1, i, hk, hok => by
      have hsp (S : Finset ℕ) (hS : S ⊆ U) := ht.paint_addr (g := g) hp hS (c := p + 15)
        (by omega) (by omega)
      by_cases hi : i < m.numLocals p
      · have hlt : p + 18 + 2 * i < m.addr (p + 15) := by
          rw [Memory.numLocals] at hi
          omega
        rw [show m.numLocals p - i = m.numLocals p - (i + 1) + 1 by omega, List.range'_succ,
          List.map_cons, Memory.fields_cons] at hok ⊢
        rw [List.forall_mem_cons] at hok
        have hfirst := hmark.ptr ht hp (c := p + (18 + 2 * i)) (by omega) (by omega) hok.1
        have hrest := SimMark.locals hmark ht hp hlayout (k := k) (i := i + 1) (by omega) hok.2
        rw [Ref.targets_item]
        apply (hfirst.andThen hrest).congr
        intro S hS
        rw [markLocals, hsp S hS, if_pos hlt, Nat.add_assoc p 18 (2 * i),
          show p + (18 + 2 * i) + 2 = p + 18 + 2 * (i + 1) by omega]
      · have hge : ¬ p + 18 + 2 * i < m.addr (p + 15) := by
          rw [Memory.numLocals] at hi
          omega
        rw [Nat.sub_eq_zero_of_le (by omega)]
        apply Sim.nil.congr
        intro S hS
        rw [markLocals, hsp S hS, if_neg hge]

/-- The arguments of the native frame are visited from the index `i` on. -/
theorem SimMark.args (hmark : SimMark m nativeframe g U fuel mark)
    (ht : m.Typed nativeframe ext U) (hp : nativeframe ∈ U)
    (hlayout : 10 + 2 * (m (nativeframe + 9)).toNat ≤ ext nativeframe) :
    ∀ {k i : ℕ}, (m (nativeframe + 9)).toNat - i < k →
      (∀ r ∈ m.fields nativeframe
          ((List.range' i ((m (nativeframe + 9)).toNat - i)).map fun i => 10 + 2 * i),
        r.Ok m U) →
        Sim m nativeframe g U fuel (markArgs mark nativeframe k i)
          ((m.fields nativeframe
              ((List.range' i ((m (nativeframe + 9)).toNat - i)).map fun i => 10 + 2 * i)).filterMap
            Ref.target)
  | 0, i, hk, _ => absurd hk (Nat.not_lt_zero _)
  | k + 1, i, hk, hok => by
      have hnum (S : Finset ℕ) (hS : S ⊆ U) := ht.paint_apply (g := g) hp hS
        (c := nativeframe + 9) (by omega) (by omega)
      by_cases hi : i < (m (nativeframe + 9)).toNat
      · rw [show (m (nativeframe + 9)).toNat - i = (m (nativeframe + 9)).toNat - (i + 1) + 1 by
            omega, List.range'_succ, List.map_cons, Memory.fields_cons] at hok ⊢
        rw [List.forall_mem_cons] at hok
        have hfirst := hmark.ptr ht hp (c := nativeframe + (10 + 2 * i)) (by omega) (by omega)
          hok.1
        have hrest := SimMark.args hmark ht hp hlayout (k := k) (i := i + 1) (by omega) hok.2
        rw [Ref.targets_item]
        apply (hfirst.andThen hrest).congr
        intro S hS
        rw [markArgs, hnum S hS, if_pos hi, Nat.add_assoc nativeframe 10 (2 * i)]
      · rw [Nat.sub_eq_zero_of_le (by omega)]
        apply Sim.nil.congr
        intro S hS
        rw [markArgs, hnum S hS, if_neg hi]

/-- The items and the segments of a seglist are visited from the index `i` on. -/
theorem SimMark.segments (hmark : SimMark m nativeframe g U fuel mark)
    (ht : m.Typed nativeframe ext U) :
    ∀ {n i pobj : ℕ}, (i % SEGLIST_OBJS_PER_SEG ≠ 0 → pobj ∈ U ∧ m.type pobj = some .seg) →
      (∀ r ∈ m.segRefs n i pobj, r.Ok m U) →
        Sim m nativeframe g U fuel (markSegments mark g n i pobj)
          ((m.segRefs n i pobj).filterMap Ref.target)
  | 0, _, _, _, _ => Sim.nil
  | n + 1, i, pobj, hseg, hok => by
      have hpobj : pobj ∈ U ∧ m.type pobj = some .seg := by
        by_cases hi : i % SEGLIST_OBJS_PER_SEG = 0
        · rw [Memory.segRefs, if_pos hi] at hok
          exact hok (.seg pobj) (by simp)
        · exact hseg hi
      have hlayout : 20 ≤ ext pobj := by
        have := (ht.layout pobj hpobj.1).2
        rwa [Memory.layout, hpobj.2] at this
      have hmod : i % SEGLIST_OBJS_PER_SEG < 8 := Nat.mod_lt i (by decide)
      rw [Memory.segRefs, List.forall_mem_cons] at hok
      have hfirst := hmark.ptr ht hpobj.1 (c := pobj + 2 + 2 * (i % SEGLIST_OBJS_PER_SEG))
        (by omega) (by omega) hok.1
      rw [Memory.segRefs, Ref.targets_item]
      by_cases hzero : i % SEGLIST_OBJS_PER_SEG = 0
      · rw [if_pos hzero, List.forall_mem_cons] at hok
        have hrest := SimMark.segments hmark ht (n := n) (i := i + 1) (fun _ => hpobj) hok.2.2
        rw [if_pos hzero, Ref.targets_seg]
        apply (hfirst.andThen ((Sim.seg hpobj.1 hpobj.2).andThen hrest)).congr
        intro S hS
        simp only [markSegments, if_pos hzero]
        rfl
      · rw [if_neg hzero] at hok ⊢
        by_cases hlast : i % SEGLIST_OBJS_PER_SEG = SEGLIST_OBJS_PER_SEG - 1
        · have hnext (S : Finset ℕ) (hS : S ⊆ U) := ht.paint_ptr (g := g) hpobj.1 hS
            (c := pobj + 18) (by omega) (by omega)
          rw [if_pos hlast] at hok ⊢
          have hrest : Sim m nativeframe g U fuel
              (fun m => match m.ptr (pobj + 18) with
                | none => some (m, .ok)
                | some q => markSegments mark g n (i + 1) q m)
              ((match m.ptr (pobj + 18) with
                | none => []
                | some q => m.segRefs n (i + 1) q).filterMap Ref.target) := by
            cases hq : m.ptr (pobj + 18) with
            | none =>
                apply Sim.nil.congr
                intro S hS
                simp only [hnext S hS, hq]
            | some q =>
                have hi : (i + 1) % SEGLIST_OBJS_PER_SEG = 0 := by
                  simp only [SEGLIST_OBJS_PER_SEG] at hlast ⊢
                  omega
                rw [hq] at hok
                apply (SimMark.segments hmark ht (n := n) (i := i + 1)
                  (fun hne => absurd hi hne) hok.2).congr
                intro S hS
                simp only [hnext S hS, hq]
          apply (hfirst.andThen hrest).congr
          intro S hS
          have hrun := markSegments.eq_2 mark g i pobj (Memory.paint g S m) n
          simp only [if_neg hzero, if_pos hlast] at hrun
          exact hrun
        · rw [if_neg hlast] at hok ⊢
          have hrest := SimMark.segments hmark ht (n := n) (i := i + 1) (fun _ => hpobj) hok.2
          apply (hfirst.andThen hrest).congr
          intro S hS
          simp only [markSegments, if_neg hzero, if_neg hlast]

/-- The references of an object that are in some of its fields. -/
theorem SimMark.refs (hmark : SimMark m nativeframe g U fuel mark)
    (ht : m.Typed nativeframe ext U) (hp : p ∈ U) {offsets : List ℕ}
    (hrefs : m.refs nativeframe p = m.fields p offsets)
    (hk : ∀ k ∈ offsets, 0 < k ∧ k + 2 ≤ ext p) :
  Sim m nativeframe g U fuel (markFields mark (offsets.map fun k => p + k))
    (m.succ nativeframe p)
  := by
  rw [Memory.succ, hrefs]
  exact hmark.fields ht hp hk (hrefs ▸ ht.refs p hp)

/-- A tuple. -/
theorem SimMark.tup (hmark : SimMark m nativeframe g U fuel mark)
    (ht : m.Typed nativeframe ext U) (hp : p ∈ U) (heq : m.type p = some .tup) :
  Sim m nativeframe g U fuel
    (markFields mark ((List.range (m.count (p + 2))).reverse.map fun i => p + 4 + 2 * i))
    (m.succ nativeframe p)
  := by
  have hlayout := (ht.layout p hp).2
  rw [Memory.layout, heq] at hlayout
  dsimp only at hlayout
  have haddr : ((List.range (m.count (p + 2))).reverse.map fun i => 4 + 2 * i).map (fun k => p + k)
      = (List.range (m.count (p + 2))).reverse.map fun i => p + 4 + 2 * i := by
    rw [List.map_map]
    apply List.map_congr_left
    intro i _
    exact (Nat.add_assoc p 4 (2 * i)).symm
  rw [← haddr]
  apply hmark.refs ht hp (by rw [Memory.refs, heq])
  intro k hk
  simp only [List.mem_map, List.mem_reverse, List.mem_range] at hk
  omega

/-- A code object: its image is visited when it is in the RAM. -/
theorem SimMark.cob (hmark : SimMark m nativeframe g U fuel mark)
    (ht : m.Typed nativeframe ext U) (hp : p ∈ U) (heq : m.type p = some .cob) :
  Sim m nativeframe g U fuel
    (fun m => (markFields mark [p + 4, p + 6] m).andThen fun m =>
      (if m (p + 19) = MEMSPACE_RAM then markFields mark [p + 2] m
        else some (m, .ok)).andThen (markFields mark [p + 16]))
    (m.succ nativeframe p)
  := by
  have hlayout := (ht.layout p hp).2
  have hrefs := ht.refs p hp
  rw [Memory.layout, heq] at hlayout
  rw [Memory.refs, heq] at hrefs
  dsimp only at hlayout hrefs
  rw [List.forall_mem_append, List.forall_mem_append] at hrefs
  have hread (S : Finset ℕ) (hS : S ⊆ U) : m.paint g S (p + 19) = m (p + 19) :=
    ht.paint_apply hp hS (by omega) (by omega)
  have hnames := hmark.fields ht hp (by simp; omega) hrefs.1.1
  have hvars := hmark.fields ht hp (by simp; omega) hrefs.2
  have himage : Sim m nativeframe g U fuel
      (fun m => if m (p + 19) = MEMSPACE_RAM then markFields mark [p + 2] m else some (m, .ok))
      ((if m (p + 19) = MEMSPACE_RAM then m.fields p [2] else []).filterMap Ref.target) := by
    apply Sim.ite (c := fun m => m (p + 19) = MEMSPACE_RAM)
    · intro S hS
      rw [hread S hS]
    · intro hram
      exact hmark.fields ht hp (by simp; omega)
        (by simpa only [if_pos hram] using hrefs.1.2)
    · intro _
      exact Sim.nil
  rw [Memory.succ, Memory.refs, heq]
  dsimp only
  rw [List.filterMap_append, List.filterMap_append, List.append_assoc]
  exact hnames.andThen (himage.andThen hvars)

/-- A frame: the frame before it is visited unless it is the frame of a generator. -/
theorem SimMark.frm (hmark : SimMark m nativeframe g U fuel mark)
    (ht : m.Typed nativeframe ext U) (hp : p ∈ U) (heq : m.type p = some .frm) :
  Sim m nativeframe g U fuel
    (fun m =>
      (if m (m.addr (m.addr (p + 4) + 2) + 21) &&& CO_GENERATOR = 0 then markFields mark [p + 2] m
        else some (m, .ok)).andThen fun m =>
          (markFields mark [p + 4, p + 9, p + 11, p + 13] m).andThen
            (markLocals mark p (2 ^ 16) (p + 18)))
    (m.succ nativeframe p)
  := by
  have hlayout := (ht.layout p hp).2
  have hrefs := ht.refs p hp
  rw [Memory.layout, heq] at hlayout
  rw [Memory.refs, heq] at hrefs
  dsimp only at hlayout hrefs
  rw [List.forall_mem_append, List.forall_mem_append] at hrefs
  obtain ⟨hfunc, hfunctype, hco, hcotype⟩ := ht.frame p hp heq
  have hfunclayout : 12 ≤ ext (m.addr (p + 4)) := by
    have := (ht.layout _ hfunc).2
    rcases hfunctype with htype | htype <;> rwa [Memory.layout, htype] at this
  have hcolayout : 22 ≤ ext (m.addr (m.addr (p + 4) + 2)) := by
    have := (ht.layout _ hco).2
    rwa [Memory.layout, hcotype] at this
  have hflags (S : Finset ℕ) (hS : S ⊆ U) :
      m.paint g S ((m.paint g S).addr ((m.paint g S).addr (p + 4) + 2) + 21)
        = m (m.addr (m.addr (p + 4) + 2) + 21) := by
    rw [ht.paint_addr hp hS (c := p + 4) (by omega) (by omega),
      ht.paint_addr hfunc hS (c := m.addr (p + 4) + 2) (by omega) (by omega),
      ht.paint_apply hco hS (by omega) (by omega)]
  have hback : Sim m nativeframe g U fuel
      (fun m => if m (m.addr (m.addr (p + 4) + 2) + 21) &&& CO_GENERATOR = 0 then
        markFields mark [p + 2] m else some (m, .ok))
      ((if m (m.addr (m.addr (p + 4) + 2) + 21) &&& CO_GENERATOR = 0 then m.fields p [2]
        else []).filterMap Ref.target) := by
    apply Sim.ite (c := fun m => m (m.addr (m.addr (p + 4) + 2) + 21) &&& CO_GENERATOR = 0)
    · intro S hS
      rw [hflags S hS]
    · intro hgen
      exact hmark.fields ht hp (by simp; omega)
        (by simpa only [if_pos hgen] using hrefs.1.1)
    · intro _
      exact Sim.nil
  have hfixed := hmark.fields ht hp (by simp; omega) hrefs.1.2
  have hlocals := hmark.locals ht hp hlayout (k := 2 ^ 16) (i := 0)
    (by
      have : m.addr (p + 15) < 2 ^ 16 := (m.word (p + 15)).isLt
      rw [Memory.numLocals]
      omega)
    (by rw [Nat.sub_zero, ← List.range_eq_range']; exact hrefs.2)
  rw [Nat.sub_zero, ← List.range_eq_range'] at hlocals
  rw [Memory.succ, Memory.refs, heq]
  dsimp only
  rw [List.filterMap_append, List.filterMap_append, List.append_assoc]
  exact hback.andThen (hfixed.andThen hlocals)

/-- The native frame: its fields are visited when it is active. -/
theorem SimMark.nfm (hmark : SimMark m nativeframe g U fuel mark)
    (ht : m.Typed nativeframe ext U) (hp : p ∈ U) (heq : m.type p = some .nfm) :
  Sim m nativeframe g U fuel
    (fun m => if m (nativeframe + 8) = 0 then some (m, .ok)
      else
        (markFields mark [nativeframe + 2, nativeframe + 4, nativeframe + 6] m).andThen
          (markArgs mark nativeframe (2 ^ 8 + 1) 0))
    (m.succ nativeframe p)
  := by
  have hlayout := (ht.layout p hp).2
  have hrefs := ht.refs p hp
  rw [Memory.layout, heq] at hlayout
  rw [Memory.refs, heq] at hrefs
  dsimp only at hlayout hrefs
  obtain rfl := ht.native p hp heq
  rw [Memory.succ, Memory.refs, heq]
  dsimp only
  apply Sim.ite (c := fun m => m (p + 8) = 0)
  · intro S hS
    rw [ht.paint_apply hp hS (by omega) (by omega)]
  · intro _
    exact Sim.nil
  · intro hactive
    rw [if_neg hactive, List.forall_mem_append] at hrefs
    have hfixed := hmark.fields ht hp (by simp; omega) hrefs.1
    have hargs := hmark.args ht hp hlayout (k := 2 ^ 8 + 1) (i := 0)
      (by
        have := (m (p + 9)).isLt
        omega)
      (by rw [Nat.sub_zero, ← List.range_eq_range']; exact hrefs.2)
    rw [Nat.sub_zero, ← List.range_eq_range'] at hargs
    rw [List.filterMap_append]
    exact hfixed.andThen hargs

end

/-- A visit to an object that has no mark: its references are visited in their order. -/
theorem sim_gcMarkObj_succ (ht : m.Typed nativeframe ext U) (hp : p ∈ U)
    (hseg : m.type p ≠ some .seg)
    (hmark : SimMark m nativeframe g U fuel (gcMarkObj nativeframe g fuel))
    (hnew : ∀ q ∈ U, (m.desc q).gcval = !g) (hpS : p ∉ S) (hS : S ⊆ U)
    (hvisit : visitAll (m.succ nativeframe) fuel (m.succ nativeframe p) (insert p S) = some S') :
  S' ⊆ U ∧ gcMarkObj nativeframe g (fuel + 1) (some p) (m.paint g S) = some (m.paint g S', .ok)
  := by
  have hins : insert p S ⊆ U := Finset.insert_subset hp hS
  have htype := ht.paint_type (g := g) hp hS
  have hlayout := (ht.layout p hp).2
  have hunmarked : ¬ ((m.paint g S).desc p).gcval = g := by
    rw [Memory.gcval_paint (.inr (hnew p hp))]
    exact hpS
  have hset : (m.paint g S).setMark p g = m.paint g (insert p S) := Memory.setMark_paint
  -- it is enough to do what the visits to the references do
  have hgoal (f : Memory → Marked) (hf : Sim m nativeframe g U fuel f (m.succ nativeframe p)) :
      S' ⊆ U ∧ f (m.paint g (insert p S)) = some (m.paint g S', .ok) :=
    hf (insert p S) S' hins hvisit
  rw [gcMarkObj, if_neg hunmarked, htype]
  simp only [hset]
  rcases heq : m.type p with _ | t
  · exact absurd heq (ht.type p hp).1
  rw [Memory.layout, heq] at hlayout
  have hfields (offsets : List ℕ) (hrefs : m.refs nativeframe p = m.fields p offsets)
      (hk : ∀ k ∈ offsets, 0 < k ∧ k + 2 ≤ ext p) :=
    hgoal _ (hmark.refs ht hp hrefs hk)
  rw [Memory.refs, heq] at hfields
  cases t with
  | cim => exact absurd heq (ht.type p hp).2.1
  | nim => exact absurd heq (ht.type p hp).2.2
  | seg => exact absurd heq hseg
  | lst => exact hfields [4] rfl (by dsimp only at hlayout; simp; omega)
  | dic => exact hfields [4, 6] rfl (by dsimp only at hlayout; simp; omega)
  | mod => exact hfields [2, 4, 6, 8, 10] rfl (by dsimp only at hlayout; simp; omega)
  | fxn => exact hfields [2, 4, 6, 8, 10] rfl (by dsimp only at hlayout; simp; omega)
  | cli => exact hfields [2, 4] rfl (by dsimp only at hlayout; simp; omega)
  | mth => exact hfields [2, 4, 6] rfl (by dsimp only at hlayout; simp; omega)
  | clo => exact hfields [2, 4] rfl (by dsimp only at hlayout; simp; omega)
  | blk => exact hfields [7] rfl (by dsimp only at hlayout; simp; omega)
  | sqi => exact hfields [2] rfl (by dsimp only at hlayout; simp; omega)
  | thr => exact hfields [2] rfl (by dsimp only at hlayout; simp; omega)
  | bya => exact hfields [4] rfl (by dsimp only at hlayout; simp; omega)
  | tup =>
      dsimp only at hlayout ⊢
      rw [ht.paint_count hp hS (by omega) (by omega)]
      exact hgoal _ (hmark.tup ht hp heq)
  | cob => exact hgoal _ (hmark.cob ht hp heq)
  | frm => exact hgoal _ (hmark.frm ht hp heq)
  | sgl =>
      dsimp only at hlayout ⊢
      rw [ht.paint_count hp hins (by omega) (by omega), ht.paint_addr hp hins (by omega) (by omega)]
      have hrefs : m.refs nativeframe p = m.segRefs (m.count (p + 2)) 0 (m.addr (p + 4)) := by
        rw [Memory.refs, heq]
      apply hgoal
      rw [Memory.succ, hrefs]
      exact hmark.segments ht (by simp) (hrefs ▸ ht.refs p hp)
  | nfm => exact hgoal _ (hmark.nfm ht hp heq)
  | _ =>
      apply hgoal (fun m => some (m, .ok))
      rw [Memory.succ, Memory.refs, heq]
      exact Sim.nil

/-- The marking of an object is a visit to it. -/
theorem simMark_gcMarkObj (ht : m.Typed nativeframe ext U) (hnew : ∀ q ∈ U, (m.desc q).gcval = !g) :
    ∀ fuel, SimMark m nativeframe g U fuel (gcMarkObj nativeframe g fuel)
  | 0 => by
      refine ⟨fun _ => rfl, ?_⟩
      intro q _ _ S S' _ hvisit
      cases hvisit
  | fuel + 1 => by
      refine ⟨fun _ => rfl, ?_⟩
      intro q hq hseg S S' hS hvisit
      rw [visitAll_cons, Option.bind_eq_some_iff] at hvisit
      obtain ⟨S₁, hvisit, hnil⟩ := hvisit
      obtain rfl := Option.some.inj hnil
      rw [visit_succ] at hvisit
      by_cases hqS : q ∈ S
      · rw [if_pos hqS] at hvisit
        obtain rfl := Option.some.inj hvisit
        have hmarked : ((m.paint g S).desc q).gcval = g := (Memory.gcval_paint (.inl hqS)).mpr hqS
        rw [gcMarkObj, if_pos hmarked]
        exact ⟨hS, rfl⟩
      · rw [if_neg hqS] at hvisit
        exact sim_gcMarkObj_succ ht hq hseg (simMark_gcMarkObj ht hnew fuel) hnew hqS hS hvisit

/-- Some objects are visited in order. -/
theorem SimMark.list {mark : Option ℕ → Memory → Marked}
    (hmark : SimMark m nativeframe g U fuel mark) :
    ∀ {l : List (Option ℕ)}, (∀ p ∈ l, (Ref.item p).Ok m U) →
      Sim m nativeframe g U fuel (markList mark l) (l.filterMap id)
  | [], _ => Sim.nil
  | none :: l, hl => by
      rw [List.forall_mem_cons] at hl
      apply (SimMark.list hmark hl.2).congr
      intro S _
      rw [markList, hmark.1]
      rfl
  | some p :: l, hl => by
      rw [List.forall_mem_cons] at hl
      exact (hmark.2 p hl.1.1 hl.1.2).andThen (SimMark.list hmark hl.2)

/-- The marking of the roots ends, and puts the new mark on the objects that can be reached from
them. -/
theorem Heap.gcMarkRoots_eq {h : Heap} {gl : Global} {fuel : ℕ}
    (ht : h.mem.Typed gl.nativeframe ext U) (hmarks : ∀ q ∈ U, h.mark q = h.gcval)
    (hroots : ∀ p ∈ h.roots gl, (Ref.item p).Ok h.mem U) (hfuel : U.card < fuel) :
  ∃ S' ⊆ U, h.gcMarkRoots gl fuel
      = some ({ h with gcval := !h.gcval, mem := h.mem.paint (!h.gcval) S' }, .ok) ∧
    ∀ q, q ∈ S' ↔ ∃ r, some r ∈ h.roots gl ∧ Reach (h.mem.succ gl.nativeframe) r q
  := by
  have hclosed : ∀ x ∈ U, ∀ y ∈ h.mem.succ gl.nativeframe x, y ∈ U := by
    intro x hx y hy
    obtain ⟨r, hr, hry⟩ := List.mem_filterMap.mp hy
    have hok := ht.refs x hx r hr
    cases r with
    | item q =>
        obtain rfl : q = some y := hry
        exact hok.1
    | seg q =>
        obtain rfl := Option.some.inj hry
        exact hok.1
  have hmem : ∀ x ∈ (h.roots gl).filterMap id, x ∈ U := by
    intro x hx
    obtain ⟨r, hr, rfl⟩ := List.mem_filterMap.mp hx
    exact (hroots _ hr).1
  obtain ⟨S', hvisit, hS', hreach⟩ := visitAll_roots hclosed hmem hfuel
  have hnew : ∀ q ∈ U, (h.mem.desc q).gcval = !!h.gcval := by
    intro q hq
    rw [Bool.not_not]
    exact hmarks q hq
  have hsim := (simMark_gcMarkObj (g := !h.gcval) ht hnew fuel).list hroots ∅ S'
    (Finset.empty_subset U) hvisit
  refine ⟨S', hS', ?_, ?_⟩
  · have heq := hsim.2
    rw [Memory.paint_empty] at heq
    exact congrArg (Option.map _) heq
  · intro q
    rw [hreach q]
    simp

end Sim

end Etaos.Vm
