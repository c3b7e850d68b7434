import Etaos.Library.Chain
import Mathlib.Data.List.Nodup

/-!
# Unrolled lists

An unrolled list is a chain of nodes with `w` cells each.  The cell at the position `k` of the list
is the cell `k % w` of the node `k / w` of the chain.
-/

namespace Unrolled

open Chain

variable {N α : Type*} {w n i k : ℕ} {a b : N} {v : Option α} {nodes : List N}

/-- The node that is `n` links behind. -/
def walk (next : N → Option N) : ℕ → Option N → Option N
  | 0, p => p
  | n + 1, p => p.bind fun a => walk next n (next a)

/-- The walk along a chain meets its nodes in order. -/
theorem walk_eq {next : N → Option N} :
    ∀ {n : ℕ} {p : Option N} {nodes : List N}, IsChain next p nodes →
      walk next n p = nodes[n]?
  | 0, p, nodes, h => by
      rw [walk, ← List.head?_eq_getElem?]
      exact h.head?_eq.symm
  | n + 1, _, [], h => by
      obtain rfl : _ = none := h
      rfl
  | n + 1, _, a :: nodes, ⟨hp, h⟩ => by
      rw [hp, walk, Option.bind_some, walk_eq h, List.getElem?_cons_succ]

/-- The link of a node leads to the node behind it. -/
theorem next_eq {next : N → Option N} {p : Option N} (h : IsChain next p nodes)
    (ha : nodes[n]? = some a) :
  next a = nodes[n + 1]?
  := by
  induction nodes generalizing n p with
  | nil => cases ha
  | cons c nodes ih =>
      cases n with
      | zero =>
          obtain rfl := Option.some.inj ha
          rw [List.getElem?_cons_succ, ← List.head?_eq_getElem?]
          exact (IsChain.head?_eq h.2).symm
      | succ n => exact ih h.2 ha

/-- The nodes behind one are cut off. -/
theorem isChain_take [DecidableEq N] {next : N → Option N} {p : Option N} (hnodup : nodes.Nodup)
    (h : IsChain next p nodes) (ha : nodes[n]? = some a) :
  IsChain (Function.update next a none) p (nodes.take (n + 1))
  := by
  obtain ⟨hn, rfl⟩ := List.getElem?_eq_some_iff.mp ha
  have hsplit : nodes = nodes.take n ++ nodes[n] :: nodes.drop (n + 1) := by
    rw [← List.drop_eq_getElem_cons hn, List.take_append_drop]
  rw [hsplit] at h
  rw [hsplit, List.nodup_middle, List.nodup_cons] at hnodup
  rw [List.take_add_one, ha]
  apply isChain_relink
  · exact fun hmem => hnodup.1 (List.mem_append_left _ hmem)
  · exact List.not_mem_nil
  · exact (segment_middle.mp h).1
  · rfl

/-- A node is linked in behind the last one. -/
theorem isChain_concat [DecidableEq N] {next : N → Option N} {p : Option N}
    (hnodup : (nodes ++ [b]).Nodup) (ha : a ∉ nodes ++ [b]) (h : IsChain next p (nodes ++ [b])) :
  IsChain (Function.update (Function.update next a none) b (some a)) p (nodes ++ [b] ++ [a])
  := by
  have hba : b ≠ a := fun heq => ha (by simp [heq])
  rw [List.append_assoc]
  apply isChain_relink
  · intro hmem
    exact (List.nodup_append.mp hnodup).2.2 b hmem b (List.mem_singleton_self b) rfl
  · simpa using hba
  · apply segment_congr _ (segment_middle.mp h).1
    intro c hc
    exact Function.update_of_ne (fun heq => ha (by simp [← heq, hc])) _ _
  · exact ⟨rfl, Function.update_self _ _ _⟩

variable {val : N → ℕ → Option α}

/-- The cell at a position. -/
def cell (w : ℕ) (val : N → ℕ → Option α) (nodes : List N) (k : ℕ) : Option α :=
  nodes[k / w]?.bind fun a => val a (k % w)

theorem cell_eq (val : N → ℕ → Option α) (ha : nodes[k / w]? = some a) :
  cell w val nodes k = val a (k % w)
  := by
  rw [cell, ha, Option.bind_some]

theorem cell_congr {val' : N → ℕ → Option α} (h : ∀ a ∈ nodes, val' a = val a) :
  cell w val' nodes k = cell w val nodes k
  := by
  rw [cell, cell]
  cases ha : nodes[k / w]? with
  | none => rfl
  | some a => rw [Option.bind_some, Option.bind_some, h a (List.mem_of_getElem? ha)]

/-- The nodes in front do not change when there are more nodes behind them. -/
theorem cell_append {nodes' : List N} (hk : k < w * nodes.length) :
  cell w val (nodes ++ nodes') k = cell w val nodes k
  := by
  rw [cell, cell, List.getElem?_append_left (Nat.div_lt_of_lt_mul hk)]

/-- The cells of an empty node are behind those of the others, when these are all used. -/
theorem cell_concat {val' : N → ℕ → Option α} {l : List α}
    (hl : l.length = w * nodes.length) (hitem : ∀ k < l.length, cell w val nodes k = l[k]?)
    (hval : ∀ b ∈ nodes, val' b = val b) (hnew : val' a = fun _ => none)
    (hk : k < w * (nodes ++ [a]).length) :
  cell w val' (nodes ++ [a]) k = l[k]?
  := by
  rw [List.length_append, List.length_singleton] at hk
  by_cases hold : k < w * nodes.length
  · rw [cell_append hold, cell_congr hval]
    exact hitem k (hl ▸ hold)
  · have hdiv : k / w = nodes.length := by
      apply Nat.div_eq_of_lt_le
      · rw [Nat.mul_comm]
        exact Nat.not_lt.mp hold
      · rwa [Nat.mul_comm]
    have hnode : (nodes ++ [a])[k / w]? = some a := by
      rw [hdiv, List.getElem?_concat_length]
    rw [cell_eq _ hnode, hnew, List.getElem?_eq_none (hl ▸ Nat.not_lt.mp hold)]

/-- A write to the cell of a node is a write at one position. -/
theorem cell_update [DecidableEq N] (hnodup : nodes.Nodup) (ha : nodes[i / w]? = some a) :
  cell w (Function.update val a (Function.update (val a) (i % w) v)) nodes k
    = if k = i then v else cell w val nodes k
  := by
  cases hb : nodes[k / w]? with
  | none =>
      have hne : k ≠ i := by
        rintro rfl
        cases hb.symm.trans ha
      rw [if_neg hne, cell, cell, hb, Option.bind_none, Option.bind_none]
  | some b =>
      rw [cell_eq _ hb, cell_eq _ hb]
      by_cases hba : b = a
      · subst hba
        have hdiv : k / w = i / w := by
          obtain ⟨hk, hkb⟩ := List.getElem?_eq_some_iff.mp hb
          obtain ⟨hi, hib⟩ := List.getElem?_eq_some_iff.mp ha
          exact (hnodup.getElem_inj_iff).mp (hkb.trans hib.symm)
        rw [Function.update_self]
        by_cases hki : k = i
        · rw [if_pos hki, hki, Function.update_self]
        · rw [if_neg hki, Function.update_of_ne]
          intro hmod
          apply hki
          rw [← Nat.div_add_mod k w, ← Nat.div_add_mod i w, hdiv, hmod]
      · have hne : k ≠ i := by
          rintro rfl
          exact hba (Option.some.inj (hb.symm.trans ha))
        rw [if_neg hne, Function.update_of_ne hba]

end Unrolled
