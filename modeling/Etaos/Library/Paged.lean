import Mathlib.Data.List.Basic
import Mathlib.Logic.Function.Basic

/-!
# Paged memories

A memory whose writes stay in the page that they start in: behind the last address of a page a
write goes on at the first address of the same page.  A write that does not go beyond the end
of its page is a write to consecutive addresses.
-/

namespace Paged

variable {B : Type*} {p a x : ℕ} {b : B} {bs bs' : List B}

/-- The first address of the page of an address. -/
def pageStart (p a : ℕ) : ℕ :=
  a / p * p

/-- The address behind an address, in the same page. -/
def pageNext (p a : ℕ) : ℕ :=
  pageStart p a + (a + 1) % p

/-- The bytes of a list are written from the address `a` on, in one page. -/
def store (p : ℕ) (cells : ℕ → B) : ℕ → List B → ℕ → B
  | _, [] => cells
  | a, b :: bs => store p (Function.update cells a b) (pageNext p a) bs

/-- The bytes of a list are written to consecutive addresses from `a` on. -/
def overwrite (cells : ℕ → B) : ℕ → List B → ℕ → B
  | _, [] => cells
  | a, b :: bs => overwrite (Function.update cells a b) (a + 1) bs

/-- An address outside of the range written is left as it is. -/
theorem overwrite_of_not_mem :
    ∀ {bs : List B} {a : ℕ} {cells : ℕ → B}, ¬ (a ≤ x ∧ x < a + bs.length) →
      overwrite cells a bs x = cells x
  | [], _, _, _ => rfl
  | b :: bs, a, cells, h => by
      rw [List.length_cons] at h
      rw [overwrite, overwrite_of_not_mem (by omega), Function.update_of_ne (by omega)]

/-- The range written reads back as the bytes. -/
theorem overwrite_read :
    ∀ {bs : List B} {a : ℕ} {cells : ℕ → B},
      (List.range bs.length).map (fun i => overwrite cells a bs (a + i)) = bs
  | [], _, _ => rfl
  | b :: bs, a, cells => by
      have hrest : (fun i => overwrite (Function.update cells a b) (a + 1) bs (a + (i + 1)))
          = fun i => overwrite (Function.update cells a b) (a + 1) bs (a + 1 + i) := by
        funext i
        congr 1
        omega
      rw [List.length_cons, List.range_succ_eq_map, List.map_cons, List.map_map]
      simp only [overwrite, Function.comp_def, Nat.succ_eq_add_one]
      rw [hrest, overwrite_read, overwrite_of_not_mem (by omega), Nat.add_zero,
        Function.update_self]

theorem overwrite_append :
    ∀ {bs : List B} {a : ℕ} {cells : ℕ → B},
      overwrite (overwrite cells a bs) (a + bs.length) bs' = overwrite cells a (bs ++ bs')
  | [], _, _ => rfl
  | b :: bs, a, cells => by
      rw [List.cons_append, overwrite, overwrite, ← overwrite_append, List.length_cons]
      congr 1
      omega

/-- The address behind an address that is not the last one of its page. -/
theorem pageNext_of_lt (h : a % p + 1 < p) : pageNext p a = a + 1 := by
  have hdiv := Nat.div_add_mod' a p
  rw [pageNext, pageStart, Nat.add_mod, Nat.mod_eq_of_lt (show 1 < p by omega), Nat.mod_eq_of_lt h]
  omega

theorem mod_succ_of_lt (h : a % p + 1 < p) : (a + 1) % p = a % p + 1 := by
  rw [Nat.add_mod, Nat.mod_eq_of_lt (show 1 < p by omega), Nat.mod_eq_of_lt h]

/-- A write that ends in the page it starts in is a write to consecutive addresses. -/
theorem store_eq_overwrite :
    ∀ {bs : List B} {a : ℕ} {cells : ℕ → B}, a % p + bs.length ≤ p →
      store p cells a bs = overwrite cells a bs
  | [], _, _, _ => rfl
  | [b], _, _, _ => rfl
  | b :: b' :: bs, a, cells, h => by
      rw [List.length_cons, List.length_cons] at h
      have hlt : a % p + 1 < p := by omega
      rw [store, overwrite, pageNext_of_lt hlt]
      apply store_eq_overwrite
      rw [mod_succ_of_lt hlt, List.length_cons]
      omega

/-- A cell that holds `b` still does so after a write of `b` only. -/
theorem store_keeps :
    ∀ {bs : List B} {a : ℕ} {cells : ℕ → B}, (∀ c ∈ bs, c = b) → cells x = b →
      store p cells a bs x = b
  | [], _, _, _, h => h
  | c :: bs, a, cells, hbs, h => by
      rw [List.forall_mem_cons] at hbs
      rw [store]
      apply store_keeps hbs.2
      by_cases hx : x = a
      · rw [hx, Function.update_self, hbs.1]
      · rw [Function.update_of_ne hx, h]

/-- A write that goes beyond the end of its page reaches the first address of the page. -/
theorem store_wraps :
    ∀ {bs : List B} {a : ℕ} {cells : ℕ → B}, (∀ c ∈ bs, c = b) → p < a % p + bs.length →
      a % p < p → store p cells a bs (pageStart p a) = b
  | [], a, _, _, h, hp => by
      rw [List.length_nil] at h
      omega
  | c :: bs, a, cells, hbs, h, hp => by
      rw [List.length_cons] at h
      rw [List.forall_mem_cons] at hbs
      rw [store]
      by_cases hlt : a % p + 1 < p
      · have hstart : pageStart p (a + 1) = pageStart p a := by
          have hdiv := Nat.div_add_mod' a p
          have hdiv' := Nat.div_add_mod' (a + 1) p
          rw [mod_succ_of_lt hlt] at hdiv'
          rw [pageStart, pageStart]
          omega
        rw [pageNext_of_lt hlt, ← hstart]
        apply store_wraps hbs.2 <;> rw [mod_succ_of_lt hlt] <;> omega
      · -- the next byte goes to the first address of the page
        have hnext : pageNext p a = pageStart p a := by
          have hmod : (a + 1) % p = 0 := by
            rw [← Nat.mod_add_mod, show a % p + 1 = p by omega, Nat.mod_self]
          rw [pageNext, hmod, Nat.add_zero]
        rw [hnext]
        cases bs with
        | nil =>
            rw [List.length_nil] at h
            omega
        | cons d bs =>
            have hbs' := hbs.2
            rw [List.forall_mem_cons] at hbs'
            rw [store]
            apply store_keeps hbs'.2
            rw [Function.update_self, hbs'.1]

end Paged
