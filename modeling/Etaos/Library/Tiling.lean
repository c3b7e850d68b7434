import Mathlib.Data.List.Nodup
import Mathlib.Algebra.BigOperators.Group.List.Basic
import Mathlib.Algebra.GroupWithZero.Nat
import Mathlib.Algebra.Order.BigOperators.Group.List
import Mathlib.Algebra.Order.Group.Nat
import Mathlib.Data.List.Perm.Subperm

/-!
# Tilings of an interval of addresses

The block at an address `p` has the `ext p` addresses from `p` on.  `Tiles ext a l b` says that
the blocks at the addresses of `l` follow one another from `a` to `b` without gaps.  A block of
a tiling is split, and adjacent blocks are merged, by a change of the extents.
-/

namespace Tiling

/-- The blocks at the addresses of `l` follow one another from `a` to `b`. -/
def Tiles (ext : ℕ → ℕ) : ℕ → List ℕ → ℕ → Prop
  | a, [], b => a = b
  | a, p :: l, b => p = a ∧ 0 < ext p ∧ Tiles ext (p + ext p) l b

/-- The blocks that a walk from `a` to `b` meets, when the fuel lasts. -/
def blocks (ext : ℕ → ℕ) : ℕ → ℕ → ℕ → List ℕ
  | 0, _, _ => []
  | fuel + 1, a, b => if a < b then a :: blocks ext fuel (a + ext a) b else []

variable {ext ext' : ℕ → ℕ} {a b p q n : ℕ} {l r run : List ℕ}

@[simp]
theorem tiles_nil : Tiles ext a [] b ↔ a = b := Iff.rfl

@[simp]
theorem tiles_cons :
  Tiles ext a (p :: l) b ↔ p = a ∧ 0 < ext p ∧ Tiles ext (p + ext p) l b
  := Iff.rfl

theorem tiles_append :
    ∀ {a : ℕ} {l : List ℕ}, Tiles ext a (l ++ r) b ↔ ∃ c, Tiles ext a l c ∧ Tiles ext c r b
  | a, [] => by simp
  | a, p :: l => by
      rw [List.cons_append, tiles_cons, tiles_append]
      constructor
      · rintro ⟨hp, hpos, c, hl, hr⟩
        exact ⟨c, ⟨hp, hpos, hl⟩, hr⟩
      · rintro ⟨c, ⟨hp, hpos, hl⟩, hr⟩
        exact ⟨hp, hpos, c, hl, hr⟩

/-- The block at `p` in the middle of a tiling. -/
theorem tiles_middle :
  Tiles ext a (l ++ p :: r) b ↔ Tiles ext a l p ∧ 0 < ext p ∧ Tiles ext (p + ext p) r b
  := by
  rw [tiles_append]
  constructor
  · rintro ⟨c, hl, rfl, hr⟩
    exact ⟨hl, hr⟩
  · rintro ⟨hl, hr⟩
    exact ⟨p, hl, rfl, hr⟩

namespace Tiles

/-- A tiling depends on the extents of its own blocks only. -/
theorem congr :
    ∀ {a : ℕ} {l : List ℕ}, Tiles ext a l b → (∀ p ∈ l, ext' p = ext p) → Tiles ext' a l b
  | _, [], h, _ => h
  | _, p :: l, h, hext => by
      rw [List.forall_mem_cons] at hext
      rw [tiles_cons, hext.1]
      exact ⟨h.1, h.2.1, congr h.2.2 hext.2⟩

theorem le : ∀ {a : ℕ} {l : List ℕ}, Tiles ext a l b → a ≤ b
  | _, [], h => Nat.le_of_eq h
  | _, p :: l, ⟨hp, _, h⟩ => by
      have := le h
      omega

/-- The blocks lie in the interval. -/
theorem bounds : ∀ {a : ℕ} {l : List ℕ}, Tiles ext a l b → p ∈ l → a ≤ p ∧ p + ext p ≤ b
  | _, q :: l, ⟨hq, _, h⟩, hp => by
      rcases List.mem_cons.mp hp with rfl | hp
      · exact ⟨hq.ge, h.le⟩
      · have := bounds h hp
        omega

theorem pos : ∀ {a : ℕ} {l : List ℕ}, Tiles ext a l b → p ∈ l → 0 < ext p
  | _, q :: l, ⟨_, hpos, h⟩, hp => by
      rcases List.mem_cons.mp hp with rfl | hp
      · exact hpos
      · exact pos h hp

/-- The blocks come in the order of their addresses. -/
theorem pairwise :
    ∀ {a : ℕ} {l : List ℕ}, Tiles ext a l b → l.Pairwise fun p q => p + ext p ≤ q
  | _, [], _ => List.Pairwise.nil
  | _, _ :: _, ⟨_, _, h⟩ => List.pairwise_cons.mpr ⟨fun _ hq => (h.bounds hq).1, h.pairwise⟩

theorem nodup (h : Tiles ext a l b) : l.Nodup := by
  apply List.Pairwise.imp_of_mem _ h.pairwise
  intro p q hp _ hle
  have := h.pos hp
  omega

/-- Two blocks have no address in common. -/
theorem disjoint :
    ∀ {a : ℕ} {l : List ℕ}, Tiles ext a l b → p ∈ l → q ∈ l → p ≠ q →
      p + ext p ≤ q ∨ q + ext q ≤ p
  | _, _ :: _, ⟨_, _, h⟩, hp, hq, hne => by
      rcases List.mem_cons.mp hp with rfl | hpl <;> rcases List.mem_cons.mp hq with rfl | hql
      · exact absurd rfl hne
      · exact .inl (h.bounds hql).1
      · exact .inr (h.bounds hpl).1
      · exact disjoint h hpl hql hne

/-- The extents of the blocks add up to the interval. -/
theorem sum : ∀ {a : ℕ} {l : List ℕ}, Tiles ext a l b → a + (l.map ext).sum = b
  | _, [], h => h
  | _, p :: l, ⟨hp, _, h⟩ => by
      have := sum h
      rw [List.map_cons, List.sum_cons]
      omega

/-- Every block has an address at least. -/
theorem length_le : ∀ {a : ℕ} {l : List ℕ}, Tiles ext a l b → a + l.length ≤ b
  | _, [], h => Nat.le_of_eq h
  | _, _ :: l, ⟨hp, _, h⟩ => by
      have := length_le h
      rw [List.length_cons]
      omega

/-- The extents of some of the blocks add up to the interval at most. -/
theorem sum_le (h : Tiles ext a l b) (hnodup : r.Nodup) (hr : r ⊆ l) :
  a + (r.map ext).sum ≤ b
  := by
  obtain ⟨r', hperm, hsub⟩ := List.subperm_of_subset hnodup hr
  have hle : (r'.map ext).sum ≤ (l.map ext).sum := (hsub.map ext).sum_le_sum (by simp)
  have hsum : (r'.map ext).sum = (r.map ext).sum := (hperm.map ext).sum_eq
  have := h.sum
  omega

/-- Every address of the interval lies in a block. -/
theorem exists_mem :
    ∀ {a : ℕ} {l : List ℕ}, Tiles ext a l b → a ≤ n → n < b → ∃ p ∈ l, p ≤ n ∧ n < p + ext p
  | _, [], h, hle, hlt => by
      rw [tiles_nil] at h
      omega
  | _, p :: l, ⟨hp, _, h⟩, hle, hlt => by
      by_cases hn : n < p + ext p
      · exact ⟨p, List.mem_cons_self, by omega, hn⟩
      · obtain ⟨q, hq, hqn⟩ := exists_mem h (by omega) hlt
        exact ⟨q, List.mem_cons_of_mem p hq, hqn⟩

/-- The walk meets the blocks of the tiling. -/
theorem blocks_eq :
    ∀ {fuel a : ℕ} {l : List ℕ}, Tiles ext a l b → b - a ≤ fuel → blocks ext fuel a b = l
  | 0, _, [], _, _ => rfl
  | fuel + 1, a, [], h, _ => by
      rw [blocks, if_neg (by simpa using (tiles_nil.mp h).ge)]
  | 0, a, p :: l, ⟨hp, hpos, h⟩, hfuel => by
      have := h.le
      omega
  | fuel + 1, a, p :: l, ⟨hp, hpos, h⟩, hfuel => by
      have hle := h.le
      subst hp
      rw [blocks, if_pos (by omega), blocks_eq h (by omega)]

/-- The end of a block is the end of the interval or the next block. -/
theorem next (h : Tiles ext a (l ++ p :: r) b) : (r.head?.getD b) = p + ext p := by
  obtain ⟨-, -, h⟩ := tiles_middle.mp h
  cases r with
  | nil => exact h.symm
  | cons q r => exact h.1

/-- A block is split in two. -/
theorem split (h : Tiles ext a (l ++ p :: r) b) (hn : 0 < n) (hlt : n < ext p)
    (hp : ext' p = n) (hq : ext' (p + n) = ext p - n) (hext : ∀ q ∈ l ++ r, ext' q = ext q) :
  Tiles ext' a (l ++ p :: (p + n) :: r) b
  := by
  obtain ⟨hl, -, hr⟩ := tiles_middle.mp h
  rw [List.forall_mem_append] at hext
  rw [tiles_middle, hp, tiles_cons, hq]
  refine ⟨hl.congr hext.1, hn, rfl, by omega, ?_⟩
  rw [show p + n + (ext p - n) = p + ext p by omega]
  exact hr.congr hext.2

/-- Adjacent blocks are merged. -/
theorem merge (h : Tiles ext a (l ++ (p :: run) ++ r) b)
    (hp : ext' p = ((p :: run).map ext).sum) (hext : ∀ q ∈ l ++ r, ext' q = ext q) :
  Tiles ext' a (l ++ p :: r) b
  := by
  obtain ⟨c, hlrun, hr⟩ := tiles_append.mp h
  obtain ⟨d, hl, hrun⟩ := tiles_append.mp hlrun
  rw [List.forall_mem_append] at hext
  have hsum := hrun.sum
  have hpos := hrun.pos List.mem_cons_self
  obtain rfl := hrun.1
  rw [tiles_middle, hp, hsum]
  refine ⟨hl.congr hext.1, ?_, hr.congr hext.2⟩
  rw [List.map_cons, List.sum_cons]
  omega

end Tiles

end Tiling
