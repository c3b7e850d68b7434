import Etaos.Vm.Purge
import Mathlib.Data.List.Chain

/-!
# The sweep coalesces what is not kept

The sweep keeps the objects that have the current mark.  The chunks between them, which are free
or hold objects without the mark, are taken off the list, and one free chunk is made of each run
of them.
-/

namespace Etaos.Vm.Heap

open Chain Insertion Tiling

/-- An object with the current mark. -/
def kept (h : Heap) (p : ℕ) : Bool :=
  !h.isFree p && h.mark p == h.gcval

variable {h h' h'' : Heap} {cs l l' l'' a b d d' run : List ℕ} {x p e fuel total : ℕ}

theorem kept_iff : h.kept p = true ↔ h.isFree p = false ∧ h.mark p = h.gcval := by
  simp [kept]

theorem kept_congr (hdesc : h'.mem.desc p = h.mem.desc p) (hgcval : h'.gcval = h.gcval) :
  h'.kept p = h.kept p
  := by
  rw [kept, kept, isFree, isFree, mark, mark, hdesc, hgcval]

/-- The chunks of `d` are made free and taken off the list. -/
structure Cleared (h h' : Heap) (cs l l' d : List ℕ) : Prop where
  shape : h'.Shape cs l'
  sub : d ⊆ cs
  free : ∀ y ∈ d, h'.isFree y = true
  mem : ∀ y, y ∈ l' ↔ y ∈ l ∧ y ∉ d
  desc : ∀ y ∈ cs, y ∉ d → h'.mem.desc y = h.mem.desc y
  extent : ∀ y ∈ cs, h'.mem.extent y = h.mem.extent y
  writes : WritesIn (d ++ l) h h'

namespace Cleared

theorem refl (hs : h.Shape cs l) : Cleared h h cs l l [] :=
  ⟨hs, by simp, by simp, by simp, fun _ _ _ => rfl, fun _ _ => rfl, rfl, fun _ _ => rfl⟩

theorem trans (hc : Cleared h h' cs l l' d) (hc' : Cleared h' h'' cs l' l'' d') (hl : l ⊆ cs) :
  Cleared h h'' cs l l'' (d ++ d')
  := by
  constructor
  · exact hc'.shape
  · exact List.append_subset.mpr ⟨hc.sub, hc'.sub⟩
  · intro y hy
    by_cases hyd : y ∈ d'
    · exact hc'.free y hyd
    · have hyd₁ : y ∈ d := (List.mem_append.mp hy).resolve_right hyd
      rw [isFree, hc'.desc y (hc.sub hyd₁) hyd]
      exact hc.free y hyd₁
  · intro y
    rw [hc'.mem, hc.mem, List.mem_append, not_or, and_assoc]
  · intro y hy hyd
    rw [List.mem_append, not_or] at hyd
    rw [hc'.desc y hy hyd.2, hc.desc y hy hyd.1]
  · intro y hy
    rw [hc'.extent y hy, hc.extent y hy]
  · have hl' : d' ++ l' ⊆ (d ++ d') ++ l := by
      intro y hy
      have := hc.mem y
      grind
    apply (hc.writes.mono (by grind)).trans (hc'.writes.mono hl')
    intro y hy
    have hycs : y ∈ cs := by
      have := @hc.sub y
      have := @hc'.sub y
      have := @hl y
      grind
    exact ⟨hy, hc.extent y hycs⟩

/-- A free chunk is taken off the list. -/
theorem unlink (hs : h.Shape cs l) (hp : p ∈ l) :
  ∃ l', Cleared h (h.unlinkFromFreelist p) cs l l' [p]
  := by
  obtain ⟨a, b, rfl⟩ := List.append_of_mem hp
  obtain ⟨hs', hrelinked⟩ := hs.unlink
  have hnodup := hs.freeList.list.nodup
  have hdesc (y : ℕ) (hy : y ∈ cs) := hs.desc_relinked hrelinked hs'.sub hy
  refine ⟨a ++ b, hs', by simpa using hs.sub hp, ?_, ?_, fun y hy _ => hdesc y hy,
    fun y hy => Memory.extent_congr (hdesc y hy), ?_⟩
  · intro y hy
    obtain rfl := List.mem_singleton.mp hy
    rw [isFree, hdesc y (hs.sub hp)]
    exact (hs.free y hp).2
  · intro y
    have hp' : p ∉ a ++ b := (List.nodup_cons.mp (List.nodup_middle.mp hnodup)).1
    grind
  · apply (hrelinked.writesIn _).mono (by grind)
    intro y hy
    exact hs.large y (hs'.sub hy)

/-- An object is made a free chunk. -/
theorem release (hs : h.Shape cs l) (hp : p ∈ cs) (hlive : h.isFree p = false) :
  Cleared h (h.modifyDesc p fun od => (od.setType 0).setFree true) cs l l [p]
  := by
  have hpl : p ∉ l := by
    intro hmem
    cases (hs.free p hmem).2.symm.trans hlive
  set h' := h.modifyDesc p fun od => (od.setType 0).setFree true with hh'
  have hdescp : h'.mem.desc p = ((h.mem.desc p).setType 0).setFree true :=
    Memory.desc_setDesc_self _ _ _
  have hfree : h'.isFree p = true := by rw [isFree, hdescp, Desc.free_setFree]
  have hextent : h'.mem.extent p = h.mem.extent p := by
    rw [Memory.extent_of_free hfree, Memory.extent_of_live hlive, hdescp,
      Desc.chunkSize_setFree, Desc.chunkSize_setType]
    omega
  have hdesc (y : ℕ) (hy : y ∈ cs) (hne : y ≠ p) : h'.mem.desc y = h.mem.desc y :=
    Memory.desc_setDesc ((hs.apart hp hy).resolve_left hne.symm)
  refine ⟨hs.modifyDesc hp hpl hextent, by simpa using hp, by simpa using hfree, ?_, ?_, ?_,
    rfl, ?_⟩
  · intro y
    constructor
    · intro hy
      use hy
      rw [List.mem_singleton]
      rintro rfl
      exact hpl hy
    · exact And.left
  · intro y hy hne
    exact hdesc y hy (by simpa using hne)
  · intro y hy
    by_cases hne : y = p
    · rw [hne, hextent]
    · exact Memory.extent_congr (hdesc y hy hne)
  · intro c hc
    have := hc p (by simp)
    have hlarge := hs.large p hp
    simp only [HEAP_MIN_CHUNK_SIZE] at hlarge
    apply Memory.setDesc_apply
    omega

/-- What the loop that coalesces does to one chunk. -/
theorem step (hs : h.Shape cs l) (hp : p ∈ cs) (hlisted : h.isFree p = true → p ∈ l) :
  ∃ l', Cleared h (if h.isFree p then h.unlinkFromFreelist p
    else h.modifyDesc p fun od => (od.setType 0).setFree true) cs l l' [p]
  := by
  cases hfree : h.isFree p with
  | true => exact unlink hs (hlisted hfree)
  | false => exact ⟨l, release hs hp hfree⟩

end Cleared

/-- The chunks from `p` on are coalesced up to the next object that is kept. -/
theorem coalesce_eq :
    ∀ {rest a l : List ℕ} {p : ℕ} (total fuel : ℕ) {h : Heap}, h.Shape (a ++ p :: rest) l →
      (∀ y ∈ p :: rest, h.isFree y = true → y ∈ l) → rest.length < fuel →
        total + ((p :: rest).map h.mem.extent).sum ≤ HEAP_MAX_FREE_CHUNK_SIZE →
          ∃ run rest' h' l', p :: rest = run ++ rest' ∧
            h.coalesce fuel p total
              = some (h', rest'.head?.getD h.limit, total + (run.map h.mem.extent).sum) ∧
            Cleared h h' (a ++ p :: rest) l l' run ∧ (∀ y ∈ run, h.kept y = false) ∧
              ∀ q ∈ rest'.head?, h.kept q = true
  | rest, a, l, p, total, fuel + 1, h, hs, hlisted, hfuel, htotal => by
      rw [coalesce]
      by_cases hdead : h.isFree p = true ∨ h.mark p ≠ h.gcval
      · have hp : p ∈ a ++ p :: rest := by simp
        have hsize : (if h.isFree p then h.chunkSize p else h.objSize p) = h.mem.extent p := rfl
        obtain ⟨l₁, hc⟩ := Cleared.step hs hp (hlisted p List.mem_cons_self)
        set h₁ := if h.isFree p then h.unlinkFromFreelist p
          else h.modifyDesc p fun od => (od.setType 0).setFree true
        have hchunk : h₁.chunkSize p = h.mem.extent p := by
          rw [← hc.extent p hp]
          exact (Memory.extent_of_free (hc.free p (by simp))).symm
        have hlimit : h₁.limit = h.limit := by rw [limit, limit, hc.writes.eq]
        have hgcval : h₁.gcval = h.gcval := by rw [hc.writes.eq]
        have hend := hs.tiles.next
        rw [List.map_cons, List.sum_cons, HEAP_MAX_FREE_CHUNK_SIZE] at htotal
        have hlt : ¬ HEAP_MAX_FREE_CHUNK_SIZE < total + h.mem.extent p := by
          rw [HEAP_MAX_FREE_CHUNK_SIZE]
          omega
        have hmod : (total + h.mem.extent p) % 2 ^ 16 = total + h.mem.extent p := by omega
        rw [if_pos hdead]
        simp only [hsize, hmod, if_neg hlt, hchunk, hlimit]
        have hkept : h.kept p = false := by
          rw [← Bool.not_eq_true, kept_iff]
          rcases hdead with hfree | hmark
          · simp [hfree]
          · exact fun hk => hmark hk.2
        cases rest with
        | nil =>
            have hpend : h.limit = p + h.mem.extent p := hend
            rw [if_pos hpend.le]
            refine ⟨[p], [], h₁, l₁, rfl, ?_, hc, by simpa using hkept, by simp⟩
            simp [hpend]
        | cons q rest =>
            have hq : q = p + h.mem.extent p := hend
            have hqlimit : ¬ h.limit ≤ p + h.mem.extent p := by
              have hqmem : q ∈ a ++ p :: q :: rest := by simp
              have := hs.tiles.bounds hqmem
              have := hs.tiles.pos hqmem
              rw [limit]
              omega
            have hne (y : ℕ) (hy : y ∈ q :: rest) : y ≠ p := by
              have hnodup := hs.tiles.nodup
              rw [List.nodup_middle, List.nodup_cons] at hnodup
              rintro rfl
              exact hnodup.1 (List.mem_append_right _ hy)
            have hdesc (y : ℕ) (hy : y ∈ q :: rest) : h₁.mem.desc y = h.mem.desc y :=
              hc.desc y (by simp at hy ⊢; tauto) (by simpa using hne y hy)
            have happend : a ++ p :: q :: rest = (a ++ [p]) ++ q :: rest := by simp
            have hmap : (q :: rest).map h₁.mem.extent = (q :: rest).map h.mem.extent :=
              List.map_congr_left fun y hy => Memory.extent_congr (hdesc y hy)
            rw [if_neg hqlimit, ← hq]
            obtain ⟨run, rest', h', l', hrest, heq, hc', hrun, hstop⟩ :=
              coalesce_eq (total + h.mem.extent p) fuel (happend ▸ hc.shape)
                (by
                  intro y hy hfree
                  rw [isFree, hdesc y hy] at hfree
                  rw [hc.mem, List.mem_singleton]
                  exact ⟨hlisted y (List.mem_cons_of_mem p hy) hfree, hne y hy⟩)
                (by simpa using hfuel)
                (by rw [hmap, HEAP_MAX_FREE_CHUNK_SIZE]; omega)
            have hkept' (y : ℕ) (hy : y ∈ q :: rest) : h₁.kept y = h.kept y :=
              kept_congr (hdesc y hy) hgcval
            have hsub : run ⊆ q :: rest := by
              rw [hrest]
              exact List.subset_append_left _ _
            have hmap' : run.map h₁.mem.extent = run.map h.mem.extent :=
              List.map_congr_left fun y hy => Memory.extent_congr (hdesc y (hsub hy))
            refine ⟨p :: run, rest', h', l', by rw [hrest]; rfl, ?_,
              hc.trans (happend ▸ hc') hs.sub, ?_, ?_⟩
            · rw [heq, hlimit, hmap', List.map_cons, List.sum_cons, Nat.add_assoc]
            · intro y hy
              rcases List.mem_cons.mp hy with rfl | hy
              · exact hkept
              · rw [← hkept' y (hsub hy)]
                exact hrun y hy
            · intro y hy
              have hymem : y ∈ q :: rest := by
                rw [hrest]
                exact List.mem_append_right _ (List.mem_of_head? hy)
              rw [← hkept' y hymem]
              exact hstop y hy
      · rw [if_neg hdead]
        refine ⟨[], p :: rest, h, l, rfl, rfl, Cleared.refl hs, by simp, ?_⟩
        intro q hq
        obtain rfl := Option.some.inj hq
        rw [kept_iff]
        simpa using hdead

theorem sum_extent_mod (m : Memory) : ∀ l : List ℕ, (l.map m.extent).sum % 4 = 0
  | [] => rfl
  | p :: l => by
      have := sum_extent_mod m l
      have := m.extent_mod (p := p)
      rw [List.map_cons, List.sum_cons]
      omega

/-- The chunks of the heap are not more than one chunk can hold. -/
theorem Shape.sum_le (hs : h.Shape cs l) (hnodup : run.Nodup) (hrun : run ⊆ cs) :
  (run.map h.mem.extent).sum ≤ HEAP_MAX_FREE_CHUNK_SIZE
  := by
  have hsum := hs.tiles.sum
  have hmod := sum_extent_mod h.mem cs
  have := hs.tiles.sum_le hnodup hrun
  have := hs.base_pos
  have := hs.bound
  rw [HEAP_MAX_FREE_CHUNK_SIZE]
  omega

/-- One free chunk is made of a run of chunks that are not on the list. -/
theorem Shape.merge (hs : h.Shape (a ++ (x :: run) ++ b) l) (hl : ∀ y ∈ x :: run, y ∉ l)
    (htotal : total = ((x :: run).map h.mem.extent).sum) :
  ∃ h' l', h.makeFree x total = some h' ∧ h'.Shape (a ++ x :: b) l' ∧ l'.Perm (x :: l) ∧
    h'.isFree x = true ∧ h'.mem.extent x = total ∧
      (∀ y ∈ a ++ b, h'.mem.desc y = h.mem.desc y) ∧ WritesIn (x :: l) h h'
  := by
  have hx : x ∈ a ++ (x :: run) ++ b := by simp
  have hxl := hl x List.mem_cons_self
  have hlarge := hs.large x hx
  have hbase := hs.base_pos
  have hbound := hs.bound
  have havail := hs.avail_le
  have hnodup := hs.tiles.nodup
  rw [List.append_assoc] at hnodup
  have hmod : total % 4 = 0 := by
    rw [htotal]
    exact sum_extent_mod h.mem _
  have hle : total ≤ h.size := by
    have hrun : (x :: run).Nodup := (List.nodup_append'.mp (List.nodup_append'.mp hnodup).2.1).1
    have := hs.tiles.sum_le hrun fun y hy =>
      List.mem_append_left _ (List.mem_append_right _ hy)
    omega
  have hspaced : Spaced (x :: l) := hs.spaced.mono (List.cons_subset.mpr ⟨hx, hs.sub⟩)
  obtain ⟨h', heq, hlist, hmade⟩ := hs.freeList.makeFree (n := total) hspaced hxl
    (fun y hy => hs.valid (List.cons_subset.mpr ⟨hx, hs.sub⟩ hy)) hs.length_le hmod (by omega)
    (by omega)
  have hextent : h'.mem.extent x = total := by
    rw [Memory.extent_of_free hmade.free]
    exact hmade.size
  have hdesc (y : ℕ) (hy : y ∈ a ++ (x :: run) ++ b) (hne : x ≠ y) :
      h'.mem.desc y = h.mem.desc y := by
    apply hmade.desc _ ((hs.apart hx hy).resolve_left hne)
    exact fun z hz => hs.apart (hs.sub hz) hy
  have hxab : x ∉ a ++ b := by
    rw [List.cons_append, List.nodup_middle, List.nodup_cons] at hnodup
    grind
  have hdesc' (y : ℕ) (hy : y ∈ a ++ b) : h'.mem.desc y = h.mem.desc y :=
    hdesc y (by simp at hy ⊢; tauto) (fun heq => hxab (heq ▸ hy))
  have hframe (c : ℕ) (hc : ∀ y ∈ x :: l, c < y ∨ y + h.mem.extent y ≤ c) :
      h'.mem c = h.mem c := by
    rw [List.forall_mem_cons] at hc
    simp only [HEAP_MIN_CHUNK_SIZE] at hlarge
    apply hmade.frame
    · intro y hy
      have := hc.2 y hy
      have := hs.large y (hs.sub hy)
      simp only [HEAP_MIN_CHUNK_SIZE] at this
      omega
    · omega
  have hbase' : h'.base = h.base := by rw [hmade.eq]
  have hsize' : h'.size = h.size := by rw [hmade.eq]
  refine ⟨h', _, heq, ⟨?_, ?_, ?_, ?_, hlist, ?_⟩, perm_insertBehind, hmade.free,
    hextent, hdesc', hmade.eq, hframe⟩
  · rwa [hbase']
  · rwa [hbase', hsize']
  · rw [hbase', hsize']
    apply hs.tiles.merge (hextent.trans htotal)
    intro y hy
    exact Memory.extent_congr (hdesc' y hy)
  · intro y hy
    by_cases hyx : y = x
    · rw [hyx, hextent, htotal, List.map_cons, List.sum_cons]
      omega
    · have hyab : y ∈ a ++ b := by simp at hy ⊢; tauto
      rw [Memory.extent_congr (hdesc' y hyab)]
      apply hs.large y (by simp at hyab ⊢; tauto)
  · intro y hy
    rcases mem_insertBehind.mp hy with rfl | hy
    · exact ⟨by simp, hmade.free⟩
    · have hyx : x ≠ y := fun heq => hxl (heq ▸ hy)
      constructor
      · have := hs.sub hy
        have := fun h => hl y h hy
        simp only [List.mem_append, List.mem_cons] at *
        tauto
      · rw [isFree, hdesc y (hs.sub hy) hyx]
        exact (hs.free y hy).2

/-- The objects that are kept are skipped. -/
theorem skipMarked_eq :
    ∀ (fuel : ℕ) {rest a : List ℕ}, h.Shape (a ++ rest) l → rest.length < fuel →
      h.skipMarked fuel (rest.head?.getD h.limit)
        = some ((rest.dropWhile h.kept).head?.getD h.limit)
  | fuel + 1, [], a, hs, _ => by
      rw [skipMarked, if_neg (by simp)]
      rfl
  | fuel + 1, p :: rest, a, hs, hfuel => by
      have hend := hs.tiles.next
      have hbounds := hs.tiles.bounds (p := p) (by simp)
      have hpos := hs.tiles.pos (p := p) (by simp)
      have hlt : p < h.limit := by
        rw [limit]
        omega
      rw [List.head?_cons, Option.getD_some, skipMarked]
      cases hkept : h.kept p with
      | true =>
          obtain ⟨hlive, hmark⟩ := kept_iff.mp hkept
          have hsize : h.objSize p = h.mem.extent p := (Memory.extent_of_live hlive).symm
          rw [if_pos ⟨hlive, hmark, hlt⟩, hsize, ← hend, List.dropWhile_cons_of_pos hkept]
          apply skipMarked_eq fuel (a := a ++ [p]) (by simpa using hs)
          simpa using hfuel
      | false =>
          have hdead : ¬ (h.isFree p = false ∧ h.mark p = h.gcval ∧ p < h.limit) := by
            rintro ⟨hlive, hmark, -⟩
            rw [kept_iff.mpr ⟨hlive, hmark⟩] at hkept
            cases hkept
          rw [if_neg hdead, List.dropWhile_cons_of_neg (by simp [hkept])]
          rfl

/-- One free chunk is made of the chunks from `x` on that are not kept. -/
structure Merged (h h' : Heap) (a : List ℕ) (x : ℕ) (run rest l l' : List ℕ) : Prop where
  shape : h'.Shape (a ++ x :: rest) l'
  listed : ∀ y ∈ a ++ x :: rest, h'.isFree y = true → y ∈ l'
  sub : ∀ y ∈ l', y = x ∨ y ∈ l ∧ y ∈ a ++ rest
  free : h'.isFree x = true
  desc : ∀ y ∈ a ++ rest, h'.mem.desc y = h.mem.desc y
  dead : ∀ y ∈ x :: run, h.kept y = false
  stop : ∀ q ∈ rest.head?, h.kept q = true
  writes : WritesIn ((x :: run) ++ l) h h'
  inside : ∀ c, x ≤ c → c < x + h'.mem.extent x →
    ∃ y ∈ x :: run, y ≤ c ∧ c < y + h.mem.extent y

theorem merged (fuel : ℕ) (hs : h.Shape (a ++ x :: b) l)
    (hlisted : ∀ y ∈ a ++ x :: b, h.isFree y = true → y ∈ l) (hdead : h.kept x = false)
    (hfuel : b.length < fuel) :
  ∃ run rest h₁ total h' l', b = run ++ rest ∧
    h.coalesce fuel x 0 = some (h₁, rest.head?.getD h'.limit, total) ∧
      h₁.makeFree x total = some h' ∧ Merged h h' a x run rest l l'
  := by
  have hsum := hs.sum_le (List.nodup_append'.mp hs.tiles.nodup).2.1 (by simp)
  obtain ⟨run, rest, h₁, l₁, hrest, heq, hc, hrun, hstop⟩ := coalesce_eq 0 fuel hs
    (fun y hy => hlisted y (List.mem_append_right a hy)) hfuel (by omega)
  rw [Nat.zero_add] at heq
  cases run with
  | nil =>
      obtain rfl : x :: b = rest := hrest
      cases (hstop x rfl).symm.trans hdead
  | cons y run =>
      obtain ⟨rfl, rfl⟩ : x = y ∧ b = run ++ rest := by simpa using hrest
      have hcs : a ++ x :: (run ++ rest) = a ++ (x :: run) ++ rest := by simp
      have hs₁ := hc.shape
      rw [hcs] at hs₁
      have hmap : ((x :: run).map h.mem.extent).sum = ((x :: run).map h₁.mem.extent).sum := by
        rw [List.map_congr_left]
        intro y hy
        exact (hc.extent y (hcs ▸ List.mem_append_left _ (List.mem_append_right _ hy))).symm
      obtain ⟨h', l', hmake, hs', hperm, hfree, htotal, hdesc, hwrites⟩ := hs₁.merge
        (fun y hy hyl => ((hc.mem y).mp hyl).2 hy) hmap
      have hlimit : h'.limit = h.limit := by
        rw [limit, limit, hwrites.eq, hc.writes.eq]
      have hnodup := hs.tiles.nodup
      rw [hcs] at hnodup
      have hdisjoint (y : ℕ) (hy : y ∈ a ++ rest) : y ∉ x :: run := by
        grind
      have hsub (y : ℕ) (hy : y ∈ a ++ rest) : y ∈ a ++ x :: (run ++ rest) := by
        grind
      have hdesc' (y : ℕ) (hy : y ∈ a ++ rest) : h'.mem.desc y = h.mem.desc y := by
        rw [hdesc y hy, hc.desc y (hsub y hy) (hdisjoint y hy)]
      have hextent (y : ℕ) (hy : y ∈ a ++ rest) := Memory.extent_congr (hdesc' y hy)
      refine ⟨run, rest, h₁, _, h', l', rfl, by rw [hlimit]; exact heq, hmake, hs', ?_, ?_,
        hfree, hdesc', hrun, hstop, ?_, ?_⟩
      · intro y hy hyfree
        rw [hperm.mem_iff, List.mem_cons]
        by_cases hyx : y = x
        · exact .inl hyx
        · right
          have hyar : y ∈ a ++ rest := by grind
          rw [isFree, hdesc' y hyar] at hyfree
          exact (hc.mem y).mpr ⟨hlisted y (hsub y hyar) hyfree, hdisjoint y hyar⟩
      · intro y hy
        rcases List.mem_cons.mp (hperm.mem_iff.mp hy) with hyx | hyl
        · exact .inl hyx
        · right
          obtain ⟨hyl, hyrun⟩ := (hc.mem y).mp hyl
          have := hs.sub hyl
          grind
      · have hwrites' : WritesIn ((x :: run) ++ l) h₁ h' := by
          apply hwrites.mono
          intro y hy
          have := hc.mem y
          grind
        apply hc.writes.trans hwrites'
        · intro y hy
          have hycs : y ∈ a ++ x :: (run ++ rest) := by
            have hsubl : l ⊆ a ++ x :: (run ++ rest) := hs.sub
            have := @hsubl y
            grind
          exact ⟨hy, hc.extent y hycs⟩
      · intro c hxc hc'
        have htiles := hs.tiles
        rw [hcs, List.append_assoc] at htiles
        obtain ⟨d, -, htiles⟩ := tiles_append.mp htiles
        obtain ⟨e, htiles, -⟩ := tiles_append.mp htiles
        have hd : x = d := htiles.1
        have hend := htiles.sum
        apply htiles.exists_mem (by omega)
        omega

/-- The chunks of `rest`, which are behind those of `a`, are swept to the chunks of `cs`. -/
structure Swept (h h' : Heap) (a rest cs l l' : List ℕ) : Prop where
  shape : h'.Shape (a ++ cs) l'
  listed : ∀ y ∈ a ++ cs, h'.isFree y = true → y ∈ l'
  head : cs.head? = rest.head?
  kept : (cs.filter fun y => !h'.isFree y) = rest.filter h.kept
  desc : ∀ y ∈ a ++ rest.filter h.kept, h'.mem.desc y = h.mem.desc y
  coalesced : cs.IsChain fun y z => h'.isFree y = false ∨ h'.isFree z = false
  writes : WritesIn (l ++ rest.filter fun y => !h.kept y) h h'

namespace Swept

variable {cs rest : List ℕ} {h₁ : Heap} {l₁ : List ℕ}

theorem nil (hs : h.Shape a l) (hlisted : ∀ y ∈ a, h.isFree y = true → y ∈ l) :
  Swept h h a [] [] l l
  := by
  refine ⟨by simpa using hs, by simpa using hlisted, rfl, rfl, fun _ _ => rfl, .nil, rfl,
    fun _ _ => rfl⟩

/-- An object that is kept is skipped. -/
theorem cons (hw : Swept h h' (a ++ [x]) rest cs l l') (hx : h.kept x = true) :
  Swept h h' a (x :: rest) (x :: cs) l l'
  := by
  have happend (r : List ℕ) : a ++ [x] ++ r = a ++ x :: r := by simp
  have hlive : h'.isFree x = false := by
    rw [isFree, hw.desc x (by simp)]
    exact (kept_iff.mp hx).1
  constructor
  · exact happend cs ▸ hw.shape
  · exact happend cs ▸ hw.listed
  · rfl
  · rw [List.filter_cons_of_pos (by simp [hlive]), List.filter_cons_of_pos hx, hw.kept]
  · rw [List.filter_cons_of_pos hx]
    exact happend _ ▸ hw.desc
  · rw [List.isChain_cons]
    exact ⟨fun _ _ => .inl hlive, hw.coalesced⟩
  · rw [List.filter_cons_of_neg (by simp [hx])]
    exact hw.writes

theorem append (hw : Swept h h' (a ++ b) rest cs l l') (hb : ∀ y ∈ b, h.kept y = true) :
  Swept h h' a (b ++ rest) (b ++ cs) l l'
  := by
  induction b generalizing a with
  | nil => simpa using hw
  | cons y b ih =>
      rw [List.forall_mem_cons] at hb
      exact (ih (by simpa using hw) hb.2).cons hb.1

/-- A free chunk is made of the chunks before the next object that is kept. -/
theorem merge (hm : Merged h h₁ a x run rest l l₁) (hw : Swept h₁ h' (a ++ [x]) rest cs l₁ l') :
  Swept h h' a (x :: (run ++ rest)) (x :: cs) l l'
  := by
  have happend (r : List ℕ) : a ++ [x] ++ r = a ++ x :: r := by simp
  have hgcval : h₁.gcval = h.gcval := by rw [hm.writes.eq]
  have hkept (y : ℕ) (hy : y ∈ rest) : h₁.kept y = h.kept y :=
    kept_congr (hm.desc y (List.mem_append_right a hy)) hgcval
  have hextent (y : ℕ) (hy : y ∈ a ++ rest) := Memory.extent_congr (hm.desc y hy)
  have hfree : h'.isFree x = true := by
    rw [isFree, hw.desc x (by simp)]
    exact hm.free
  have hlive : (x :: (run ++ rest)).filter h.kept = rest.filter h₁.kept := by
    have hnil : (x :: run).filter h.kept = [] := by
      rw [List.filter_eq_nil_iff]
      intro y hy
      simp [hm.dead y hy]
    rw [← List.cons_append, List.filter_append, hnil, List.nil_append, List.filter_congr]
    intro y hy
    exact (hkept y hy).symm
  constructor
  · exact happend cs ▸ hw.shape
  · exact happend cs ▸ hw.listed
  · rfl
  · rw [List.filter_cons_of_neg (by simp [hfree]), hw.kept, hlive]
  · intro y hy
    rw [hlive] at hy
    have hya : y ∈ a ++ rest := by
      rcases List.mem_append.mp hy with hya | hyr
      · exact List.mem_append_left _ hya
      · exact List.mem_append_right _ (List.mem_of_mem_filter hyr)
    rw [← hm.desc y hya]
    apply hw.desc
    simp only [List.mem_append] at hy ⊢
    tauto
  · rw [List.isChain_cons]
    refine ⟨?_, hw.coalesced⟩
    intro q hq
    right
    rw [hw.head] at hq
    have hqrest := List.mem_of_head? hq
    have hqkept : h₁.kept q = true := (hkept q hqrest).trans (hm.stop q hq)
    have hqmem : q ∈ a ++ [x] ++ rest.filter h₁.kept := by
      apply List.mem_append_right
      exact List.mem_filter.mpr ⟨hqrest, hqkept⟩
    rw [isFree, hw.desc q hqmem]
    exact (kept_iff.mp hqkept).1
  · constructor
    · rw [hw.writes.eq, hm.writes.eq]
    · intro c hc
      have hdead (y : ℕ) (hy : y ∈ x :: run) : c < y ∨ y + h.mem.extent y ≤ c := by
        apply hc
        have := hm.dead y hy
        simp only [List.mem_append, List.mem_filter, List.mem_cons] at hy ⊢
        grind
      rw [hw.writes.frame c, hm.writes.frame c]
      · intro y hy
        rcases List.mem_append.mp hy with hy | hy
        · exact hdead y hy
        · exact hc y (List.mem_append_left _ hy)
      · intro y hy
        rcases List.mem_append.mp hy with hy | hy
        · rcases hm.sub y hy with rfl | ⟨hyl, hya⟩
          · by_contra hout
            obtain ⟨z, hz, hzc⟩ := hm.inside c (by omega) (by omega)
            have := hdead z hz
            omega
          · rw [hextent y hya]
            exact hc y (List.mem_append_left _ hyl)
        · obtain ⟨hyr, hydead⟩ := List.mem_filter.mp hy
          rw [hextent y (List.mem_append_right a hyr)]
          apply hc
          rw [hkept y hyr] at hydead
          simp only [List.mem_append, List.mem_filter, List.mem_cons]
          tauto

end Swept

/-- The walk over the heap sweeps the chunks from an address on. -/
theorem sweepFrom_eq :
    ∀ (fuel : ℕ) (rest : List ℕ) {a l : List ℕ} {h : Heap}, h.Shape (a ++ rest) l →
      (∀ y ∈ a ++ rest, h.isFree y = true → y ∈ l) → rest.length + 1 < fuel →
        ∃ h' cs l', h.sweepFrom fuel (rest.head?.getD h.limit) = some h' ∧
          Swept h h' a rest cs l l'
  | fuel + 1, [], a, l, h, hs, hlisted, _ => by
      rw [List.append_nil] at hs hlisted
      refine ⟨h, [], l, ?_, Swept.nil hs hlisted⟩
      rw [sweepFrom]
      simp
  | fuel + 1, p :: b, a, l, h, hs, hlisted, hfuel => by
      have hlt : p < h.limit := by
        have := hs.tiles.bounds (p := p) (by simp)
        have := hs.tiles.pos (p := p) (by simp)
        rw [limit]
        omega
      have hskip := skipMarked_eq fuel hs (by omega)
      have hsplit := List.takeWhile_append_dropWhile (p := h.kept) (l := p :: b)
      have htake (y : ℕ) (hy : y ∈ (p :: b).takeWhile h.kept) : h.kept y = true :=
        List.mem_takeWhile_imp hy
      have hlength := congrArg List.length hsplit
      rw [List.length_append] at hlength
      rw [sweepFrom, List.head?_cons, Option.getD_some, if_pos hlt]
      rw [List.head?_cons, Option.getD_some] at hskip
      rw [hskip, Option.bind_eq_bind, Option.bind_some]
      rw [← hsplit, ← List.append_assoc] at hs hlisted
      cases hdrop : (p :: b).dropWhile h.kept with
      | nil =>
          rw [hdrop, List.append_nil] at hs hlisted hsplit
          refine ⟨h, p :: b, l, by simp, ?_⟩
          have := (Swept.nil hs hlisted).append htake
          rwa [List.append_nil, hsplit] at this
      | cons x d =>
          rw [hdrop] at hs hlisted hsplit hlength
          have hdead : h.kept x = false := by
            have := List.head?_dropWhile_not h.kept (p :: b)
            rw [hdrop] at this
            simpa using this
          have hxlimit : ¬ h.limit ≤ x := by
            have := hs.tiles.bounds (p := x) (by simp)
            have := hs.tiles.pos (p := x) (by simp)
            rw [limit]
            omega
          rw [List.length_cons] at hlength
          obtain ⟨run, rest, h₁, total, h₂, l₂, rfl, hcoalesce, hmake, hm⟩ :=
            merged fuel hs hlisted hdead (by omega)
          rw [List.length_append] at hlength
          have happend (r : List ℕ) :
              a ++ (p :: b).takeWhile h.kept ++ x :: r =
                a ++ (p :: b).takeWhile h.kept ++ [x] ++ r := by simp
          obtain ⟨h', cs, l', heq, hw⟩ := sweepFrom_eq fuel rest
            (happend rest ▸ hm.shape) (happend rest ▸ hm.listed) (by omega)
          refine ⟨h', (p :: b).takeWhile h.kept ++ x :: cs, l', ?_, ?_⟩
          · simp only [List.head?_cons, Option.getD_some, if_neg hxlimit, hcoalesce,
              Option.bind_eq_bind, Option.bind_some, hmake, heq]
          · have := (hw.merge hm).append htake
            rwa [hsplit] at this

end Etaos.Vm.Heap
