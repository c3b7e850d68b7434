import Mathlib.Data.List.DropRight
import Mathlib.Data.Nat.ModEq

/-!
# Pieces of a list

A list is cut into pieces from its front.  A piece ends behind the first element that passes a test,
or when it has `n` elements.  Elements that are left and do not make a piece are not cut off.

The pieces give the list back exactly when the number of the elements behind the last one that
passes the test is a multiple of `n`.
-/

namespace Pieces

variable {α : Type*} {p : α → Bool} {n : ℕ} {l a b : List α}

/-- The first piece of a list, and what is behind it. -/
def cut (p : α → Bool) : ℕ → List α → Option (List α × List α)
  | 0, l => some ([], l)
  | _ + 1, [] => none
  | n + 1, c :: l =>
      if p c then some ([c], l) else (cut p n l).map fun (a, b) => (c :: a, b)

/-- The pieces of a list, when there are less than `k` of them. -/
def pieces (p : α → Bool) (n : ℕ) : ℕ → List α → Option (List (List α))
  | 0, _ => none
  | k + 1, l =>
      match cut p n l with
      | none => some []
      | some (a, b) => (pieces p n k b).map (a :: ·)

/-- A list that ends with the first element that passes the test, or has `n` elements. -/
structure IsPiece (p : α → Bool) (n : ℕ) (a : List α) : Prop where
  length_le : a.length ≤ n
  inner : ∀ x ∈ a.dropLast, p x = false
  last : (∃ x ∈ a.getLast?, p x = true) ∨ a.length = n

/-- The elements behind the last one that passes the test. -/
def lastPart (p : α → Bool) (l : List α) : List α :=
  l.rtakeWhile fun x => !p x

/-! ### The first piece -/

theorem IsPiece.cons {c : α} (hc : p c = false) (h : IsPiece p n a) :
  IsPiece p (n + 1) (c :: a)
  := by
  constructor
  case length_le => exact Nat.succ_le_succ h.length_le
  case inner =>
    cases a with
    | nil => simp
    | cons d a => exact List.forall_mem_cons.mpr ⟨hc, h.inner⟩
  case last =>
    rcases h.last with ⟨x, hx, hpx⟩ | hlength
    · left
      cases a with
      | nil => cases hx
      | cons d a => exact ⟨x, by rwa [List.getLast?_cons_cons], hpx⟩
    · right
      rw [List.length_cons, hlength]

theorem cut_eq_some :
    ∀ {n : ℕ} {l a b : List α}, cut p n l = some (a, b) → l = a ++ b ∧ IsPiece p n a
  | 0, l, a, b, h => by
      obtain ⟨rfl, rfl⟩ := Prod.mk.inj (Option.some.inj h)
      exact ⟨rfl, ⟨le_rfl, by simp, .inr rfl⟩⟩
  | n + 1, c :: l, a, b, h => by
      rw [cut] at h
      split at h
      · rename_i hc
        obtain ⟨rfl, rfl⟩ := Prod.mk.inj (Option.some.inj h)
        exact ⟨rfl, ⟨by simp, by simp, .inl ⟨c, rfl, hc⟩⟩⟩
      · rename_i hc
        obtain ⟨⟨a', b'⟩, hcut, heq⟩ := Option.map_eq_some_iff.mp h
        obtain ⟨rfl, rfl⟩ := Prod.mk.inj heq
        obtain ⟨rfl, hpiece⟩ := cut_eq_some hcut
        exact ⟨rfl, hpiece.cons (Bool.not_eq_true _ ▸ hc)⟩

/-- No piece is cut off a list that is shorter than a piece and has no end of one. -/
theorem cut_eq_none :
    ∀ {n : ℕ} {l : List α}, cut p n l = none → l.length < n ∧ ∀ x ∈ l, p x = false
  | n + 1, [], _ => ⟨Nat.succ_pos n, by simp⟩
  | n + 1, c :: l, h => by
      rw [cut] at h
      split at h
      · cases h
      · rename_i hc
        obtain ⟨hlength, hall⟩ := cut_eq_none (Option.map_eq_none_iff.mp h)
        refine ⟨Nat.succ_lt_succ hlength, ?_⟩
        exact List.forall_mem_cons.mpr ⟨Bool.not_eq_true _ ▸ hc, hall⟩

/-- A piece that is cut off is not empty. -/
theorem length_lt_of_cut (hn : 0 < n) (h : cut p n l = some (a, b)) : b.length < l.length := by
  obtain ⟨rfl, hpiece⟩ := cut_eq_some h
  have hne : a ≠ [] := by
    rintro rfl
    rcases hpiece.last with ⟨x, hx, -⟩ | hlength
    · cases hx
    · rw [List.length_nil] at hlength
      omega
  rw [List.length_append]
  have hpos := List.length_pos_iff.mpr hne
  omega

/-! ### The last part -/

theorem lastPart_concat (p : α → Bool) (l : List α) (x : α) :
  lastPart p (l ++ [x]) = if p x then [] else lastPart p l ++ [x]
  := by
  cases hx : p x with
  | true => exact List.rtakeWhile_concat_neg _ _ _ (by simp [hx])
  | false => exact List.rtakeWhile_concat_pos _ _ _ (by simp [hx])

theorem lastPart_eq_self (h : ∀ x ∈ l, p x = false) : lastPart p l = l := by
  rw [lastPart, List.rtakeWhile_eq_self_iff]
  intro x hx
  rw [h x hx]
  rfl

/-- The last part of a piece is empty or the whole piece. -/
theorem IsPiece.length_lastPart (h : IsPiece p n a) : (lastPart p a).length ≡ 0 [MOD n] := by
  rcases List.eq_nil_or_concat a with rfl | ⟨l, x, rfl⟩
  · rfl
  · obtain ⟨-, hinner, hlast⟩ := h
    rw [List.concat_eq_append] at hinner hlast ⊢
    rw [List.dropLast_concat] at hinner
    cases hx : p x with
    | true => rw [lastPart_concat, if_pos hx, List.length_nil]
    | false =>
        have hlength : (l ++ [x]).length = n := by
          apply hlast.resolve_left
          simp [hx]
        rw [lastPart_concat, if_neg (by simp [hx]), lastPart_eq_self hinner, hlength]
        exact Nat.modEq_zero_iff_dvd.mpr dvd_rfl

/-- A piece in front does not change the length of the last part, up to multiples of `n`. -/
theorem IsPiece.length_lastPart_append (h : IsPiece p n a) (b : List α) :
  (lastPart p (a ++ b)).length ≡ (lastPart p b).length [MOD n]
  := by
  induction b using List.reverseRecOn with
  | nil =>
      rw [List.append_nil]
      exact h.length_lastPart
  | append_singleton b x ih =>
      rw [← List.append_assoc, lastPart_concat, lastPart_concat]
      split
      · rfl
      · rw [List.length_append, List.length_append]
        exact ih.add_right _

/-! ### All pieces -/

/-- There are not more pieces than elements. -/
theorem exists_pieces (hn : 0 < n) :
    ∀ {k : ℕ} {l : List α}, l.length < k → ∃ ps, pieces p n k l = some ps
  | k + 1, l, hk => by
      rw [pieces]
      cases hcut : cut p n l with
      | none => exact ⟨[], rfl⟩
      | some ab =>
          obtain ⟨a, b⟩ := ab
          have hlt := length_lt_of_cut hn hcut
          obtain ⟨ps, hps⟩ := exists_pieces (k := k) (l := b) hn (by omega)
          exact ⟨a :: ps, by simp [hps]⟩

/-- The pieces are the front of the list, and they are the whole list exactly when the last part
fills its pieces. -/
theorem pieces_spec :
    ∀ {k : ℕ} {l : List α} {ps : List (List α)}, pieces p n k l = some ps →
      (∀ a ∈ ps, IsPiece p n a) ∧ ps.flatten <+: l ∧
        (ps.flatten = l ↔ (lastPart p l).length % n = 0)
  | k + 1, l, ps, h => by
      rw [pieces] at h
      cases hcut : cut p n l with
      | none =>
          obtain ⟨hlength, hall⟩ := cut_eq_none hcut
          rw [hcut] at h
          obtain rfl := Option.some.inj h
          refine ⟨by simp, List.nil_prefix, ?_⟩
          rw [lastPart_eq_self hall, Nat.mod_eq_of_lt hlength, List.length_eq_zero_iff, eq_comm]
          rfl
      | some ab =>
          obtain ⟨a, b⟩ := ab
          obtain ⟨rfl, hpiece⟩ := cut_eq_some hcut
          rw [hcut] at h
          obtain ⟨ps', hps', rfl⟩ := Option.map_eq_some_iff.mp h
          obtain ⟨hpieces, hprefix, hiff⟩ := pieces_spec hps'
          refine ⟨List.forall_mem_cons.mpr ⟨hpiece, hpieces⟩, ?_, ?_⟩
          · rw [List.flatten_cons]
            exact List.prefix_append_right_inj a |>.mpr hprefix
          · rw [List.flatten_cons, List.append_cancel_left_eq, hiff,
              hpiece.length_lastPart_append b]

end Pieces
