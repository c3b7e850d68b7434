import Mathlib.Data.List.Lex

/-!
# Comparing strings without case

The functions `stricmp` and `strnicmp`.  A string is the list of its bytes without the
terminating zero, and a pointer into it is the list of what is left, with the zero.  A function
has no result when it reads behind the zero.

The loop of `strnicmp` moves both pointers, and compares the strings.  The loop of `stricmp`
moves the second pointer only, one byte too far, so that it compares the first byte of one string
with the byte behind the first one of the other that differs from it.
-/

namespace Etaos.Crt

/-- The table `charmap`: capital letters are mapped to small ones, and every other byte to
itself. -/
def charmap (c : UInt8) : UInt8 :=
  if 65 ≤ c ∧ c ≤ 90 then c + 32 else c

/-- The loop of `stricmp`, with the byte that `us1` points to. -/
def stricmpLoop (us1 : UInt8) : List UInt8 → Option ℤ
  | [] => none
  | c :: us2 =>
      if charmap us1 = charmap c then
        if us1 = 0 then some 0 else stricmpLoop us1 us2
      else
        match us2 with
        | [] => none
        | c :: _ => some ((charmap us1).toNat - (charmap c).toNat)

/-- The function `stricmp`. -/
def stricmp (s1 s2 : List UInt8) : Option ℤ :=
  stricmpLoop ((s1 ++ [0]).headD 0) (s2 ++ [0])

/-- The loop of `strnicmp`. -/
def strnicmpLoop : ℕ → List UInt8 → List UInt8 → Option ℤ
  | 0, _, _ => some 0
  | n + 1, c1 :: us1, c2 :: us2 =>
      if charmap c1 ≠ charmap c2 then
        some ((charmap c1).toNat - (charmap c2).toNat)
      else if c1 = 0 then
        some 0
      else
        strnicmpLoop n us1 us2
  | _ + 1, _, _ => none

/-- The function `strnicmp`, for a number that is not negative. -/
def strnicmp (s1 s2 : List UInt8) (n : ℕ) : Option ℤ :=
  strnicmpLoop n (s1 ++ [0]) (s2 ++ [0])

/-- The string under the case map. -/
def folded (s : List UInt8) : List ℕ :=
  s.map fun c => (charmap c).toNat

/-- `stricmp` returns for both orders of two strings, with opposite signs, with 0 exactly for
strings that are equal under the case map, and with the sign of `strnicmp` for every number that is
larger than both lengths, whose signs are opposite as well. -/
def Compares (s1 s2 : List UInt8) : Prop :=
  ∃ r r', stricmp s1 s2 = some r ∧ stricmp s2 s1 = some r' ∧
    (r = 0 ↔ folded s1 = folded s2) ∧ r'.sign = -r.sign ∧
    ∀ n, s1.length < n → s2.length < n → ∃ k k', strnicmp s1 s2 n = some k ∧
      strnicmp s2 s1 n = some k' ∧ r.sign = k.sign ∧ k'.sign = -k.sign

/-- What is behind the first byte of a string that differs from `x`: a byte, or the terminating
zero. -/
def behind (x : ℕ) (s : List ℕ) : Option ℕ :=
  match s.dropWhile (· = x) with
  | [] => none
  | _ :: s => some (s.headD 0)

/-- Both strings are empty, or neither is, and each has a byte that differs from the first one of
the other; and what is behind that byte is on the same side of the first byte of the other string as
the whole string is of the other one. -/
def Guided : List ℕ → List ℕ → Prop
  | [], [] => True
  | x :: s, y :: t =>
      ∃ z ∈ behind x (y :: t), ∃ z' ∈ behind y (x :: s),
        x :: s < y :: t ∧ x < z ∧ z' < y ∨ x :: s = y :: t ∧ x = z ∧ z' = y ∨
          y :: t < x :: s ∧ z < x ∧ y < z'
  | _, _ => False

/-- The number is negative, zero or positive as the first string is smaller than the second one in
lexicographic order, equal to it, or larger. -/
def Signed (r : ℤ) (s t : List ℕ) : Prop :=
  (r < 0 ↔ s < t) ∧ (0 < r ↔ t < s)

namespace Signed

variable {r k : ℤ} {s t : List ℕ}

theorem eq_zero_iff (h : Signed r s t) : r = 0 ↔ s = t := by
  constructor
  · rintro rfl
    apply le_antisymm
    · exact not_lt.mp fun hlt => absurd (h.2.mpr hlt) (Int.lt_irrefl 0)
    · exact not_lt.mp fun hlt => absurd (h.1.mpr hlt) (Int.lt_irrefl 0)
  · rintro rfl
    have hneg : ¬ r < 0 := fun hr => lt_irrefl s (h.1.mp hr)
    have hpos : ¬ 0 < r := fun hr => lt_irrefl s (h.2.mp hr)
    omega

theorem swap (h : Signed r s t) : Signed (-r) t s := by
  rw [Signed, ← h.1, ← h.2]
  omega

/-- The strings determine the sign of the number. -/
theorem sign_eq (hr : Signed r s t) (hk : Signed k s t) : r.sign = k.sign := by
  rcases lt_trichotomy s t with h | h | h
  · rw [Int.sign_eq_neg_one_of_neg (hr.1.mpr h), Int.sign_eq_neg_one_of_neg (hk.1.mpr h)]
  · rw [hr.eq_zero_iff.mpr h, hk.eq_zero_iff.mpr h]
  · rw [Int.sign_eq_one_of_pos (hr.2.mpr h), Int.sign_eq_one_of_pos (hk.2.mpr h)]

theorem of_sign_eq (hk : Signed k s t) (h : r.sign = k.sign) : Signed r s t := by
  have hneg : r < 0 ↔ k < 0 := by
    rw [← Int.sign_eq_neg_one_iff_neg, h, Int.sign_eq_neg_one_iff_neg]
  have hpos : 0 < r ↔ 0 < k := by
    rw [← Int.sign_eq_one_iff_pos, h, Int.sign_eq_one_iff_pos]
  rw [Signed, hneg, hpos]
  exact hk

theorem cons_iff (x : ℕ) : Signed r (x :: s) (x :: t) ↔ Signed r s t := by
  rw [Signed, List.cons_lt_cons_self, List.cons_lt_cons_self, Signed]

/-- The first bytes that differ decide. -/
theorem sub_cons {x y : ℕ} (h : x ≠ y) : Signed ((x : ℤ) - y) (x :: s) (y :: t) := by
  rw [Signed, List.cons_lt_cons_iff, List.cons_lt_cons_iff]
  omega

/-- The empty string is smaller than any other one. -/
theorem sub_nil {x : ℕ} (h : x ≠ 0) : Signed ((0 : ℤ) - x) [] (x :: t) := by
  have hlt : [] < x :: t := List.nil_lt_cons ..
  have hgt : ¬ x :: t < [] := hlt.asymm
  simp only [Signed, hlt, hgt, iff_true, iff_false]
  omega

end Signed

/-! ### The case map -/

theorem charmap_zero_iff (c : UInt8) : charmap c = 0 ↔ c = 0 := by
  rw [charmap]
  split
  · rename_i hc
    have hlow := UInt8.le_iff_toNat_le.mp hc.1
    have hhigh := UInt8.le_iff_toNat_le.mp hc.2
    rw [← UInt8.toNat_inj, ← UInt8.toNat_inj, UInt8.toNat_add]
    change 65 ≤ _ at hlow
    change _ ≤ 90 at hhigh
    change (_ + 32) % 256 = 0 ↔ _ = 0
    omega
  · rfl

theorem toNat_charmap_eq_zero (c : UInt8) : (charmap c).toNat = 0 ↔ c = 0 := by
  rw [← charmap_zero_iff, ← UInt8.toNat_inj]
  rfl

@[simp]
theorem folded_nil : folded [] = [] := rfl

@[simp]
theorem folded_cons (c : UInt8) (s : List UInt8) :
  folded (c :: s) = (charmap c).toNat :: folded s
  := rfl

/-! ### The loop of `strnicmp` -/

/-- The function `strnicmp` compares the strings when the number is larger than their lengths. -/
theorem strnicmpLoop_signed :
    ∀ (n : ℕ) (s t : List UInt8), 0 ∉ s → 0 ∉ t → s.length < n → t.length < n →
      ∃ k, strnicmpLoop n (s ++ [0]) (t ++ [0]) = some k ∧ Signed k (folded s) (folded t)
  | 0, _, _, _, _, hn, _ => by omega
  | n + 1, [], [], _, _, _, _ => ⟨0, rfl, by simp [Signed]⟩
  | n + 1, [], d :: t, _, ht, _, _ => by
      have hd : d ≠ 0 := fun heq => ht (by simp [heq])
      have hpos : (charmap d).toNat ≠ 0 := fun heq => hd ((toNat_charmap_eq_zero d).mp heq)
      have hne : charmap 0 ≠ charmap d := fun heq => hd ((charmap_zero_iff d).mp heq.symm)
      refine ⟨_, ?_, Signed.sub_nil hpos⟩
      rw [List.nil_append, List.cons_append, strnicmpLoop, if_pos hne]
      rfl
  | n + 1, c :: s, [], hs, _, _, _ => by
      have hc : c ≠ 0 := fun heq => hs (by simp [heq])
      have hpos : (charmap c).toNat ≠ 0 := fun heq => hc ((toNat_charmap_eq_zero c).mp heq)
      have hne : charmap c ≠ charmap 0 := fun heq => hc ((charmap_zero_iff c).mp heq)
      refine ⟨_, ?_, (Signed.sub_nil hpos).swap⟩
      rw [List.nil_append, List.cons_append, strnicmpLoop, if_pos hne, Int.neg_sub]
      rfl
  | n + 1, c :: s, d :: t, hs, ht, hsn, htn => by
      rw [List.mem_cons, not_or] at hs ht
      rw [List.cons_append, List.cons_append, strnicmpLoop, folded_cons, folded_cons]
      by_cases hcd : charmap c = charmap d
      · obtain ⟨k, hk, hsigned⟩ := strnicmpLoop_signed n s t hs.2 ht.2 (by simpa using hsn)
          (by simpa using htn)
        rw [if_neg (not_not.mpr hcd), if_neg (Ne.symm hs.1), hcd]
        exact ⟨k, hk, (Signed.cons_iff _).mpr hsigned⟩
      · rw [if_pos hcd]
        refine ⟨_, rfl, Signed.sub_cons ?_⟩
        rwa [ne_eq, UInt8.toNat_inj]

theorem strnicmp_signed {s t : List UInt8} (hs : 0 ∉ s) (ht : 0 ∉ t) {n : ℕ}
    (hsn : s.length < n) (htn : t.length < n) :
  ∃ k, strnicmp s t n = some k ∧ Signed k (folded s) (folded t)
  := strnicmpLoop_signed n s t hs ht hsn htn

/-! ### The loop of `stricmp` -/

/-- The loop of `stricmp` compares the first byte of a string with what is behind the first byte
of the other one that differs from it. -/
theorem stricmpLoop_eq {c : UInt8} (hc : c ≠ 0) :
    ∀ t : List UInt8, stricmpLoop c (t ++ [0])
      = (behind (charmap c).toNat (folded t)).map fun z : ℕ => ((charmap c).toNat : ℤ) - z
  | [] => by
      have hne : charmap c ≠ charmap 0 := fun heq => hc ((charmap_zero_iff c).mp heq)
      rw [List.nil_append, stricmpLoop, if_neg hne]
      rfl
  | d :: t => by
      rw [List.cons_append, stricmpLoop.eq_def, folded_cons, behind]
      dsimp only
      by_cases hcd : charmap c = charmap d
      · rw [if_pos hcd, if_neg hc, stricmpLoop_eq hc t,
          List.dropWhile_cons_of_pos (by simp [hcd])]
        rfl
      · have hne : (charmap d).toNat ≠ (charmap c).toNat := by
          rw [ne_eq, UInt8.toNat_inj]
          exact Ne.symm hcd
        rw [if_neg hcd, List.dropWhile_cons_of_neg (by simpa using hne)]
        cases t <;> rfl

theorem stricmp_cons {c : UInt8} (hc : c ≠ 0) (s t : List UInt8) :
  stricmp (c :: s) t
    = (behind (charmap c).toNat (folded t)).map fun z : ℕ => ((charmap c).toNat : ℤ) - z
  := stricmpLoop_eq hc t

/-! ### The comparison -/

/-- The promises hold when `stricmp` compares the strings. -/
theorem compares_iff {s t : List UInt8} (hs : 0 ∉ s) (ht : 0 ∉ t) :
  Compares s t ↔ ∃ r r', stricmp s t = some r ∧ stricmp t s = some r' ∧
    Signed r (folded s) (folded t) ∧ Signed r' (folded t) (folded s)
  := by
  constructor
  · rintro ⟨r, r', hr, hr', -, hswap, hall⟩
    obtain ⟨k, k', hk, -, hsign, -⟩ := hall (s.length + t.length + 1) (by omega) (by omega)
    obtain ⟨k₀, hk₀, hsigned⟩ := strnicmp_signed hs ht (n := s.length + t.length + 1) (by omega)
      (by omega)
    obtain rfl : k = k₀ := Option.some.inj (hk.symm.trans hk₀)
    have hrs : Signed r (folded s) (folded t) := hsigned.of_sign_eq hsign
    refine ⟨r, r', hr, hr', hrs, hrs.swap.of_sign_eq ?_⟩
    rw [hswap, Int.sign_neg]
  · rintro ⟨r, r', hr, hr', hrs, hrs'⟩
    refine ⟨r, r', hr, hr', hrs.eq_zero_iff, ?_, fun n hsn htn => ?_⟩
    · rw [hrs'.sign_eq hrs.swap, Int.sign_neg]
    · obtain ⟨k, hk, hks⟩ := strnicmp_signed hs ht hsn htn
      obtain ⟨k', hk', hks'⟩ := strnicmp_signed ht hs htn hsn
      refine ⟨k, k', hk, hk', hrs.sign_eq hks, ?_⟩
      rw [hks'.sign_eq hks.swap, Int.sign_neg]

/-- What is behind the bytes that differ decides for both strings. -/
theorem signed_sub_iff {x y z z' : ℕ} {s t : List ℕ} :
  Signed ((x : ℤ) - z) s t ∧ Signed ((y : ℤ) - z') t s ↔
    s < t ∧ x < z ∧ z' < y ∨ s = t ∧ x = z ∧ z' = y ∨ t < s ∧ z < x ∧ y < z'
  := by
  rw [Signed, Signed]
  rcases lt_trichotomy s t with h | rfl | h
  · simp only [h, h.not_gt, h.ne, iff_true, iff_false, true_and, false_and, or_false]
    omega
  · simp only [lt_irrefl, iff_false, true_and, false_and, false_or, or_false]
    omega
  · simp only [h, h.not_gt, h.ne', iff_true, iff_false, true_and, false_and, false_or]
    omega

/-- The function `stricmp` compares two strings exactly when both are empty, or neither is and what
is behind the bytes that differ is on the side of the strings. -/
theorem compares_iff_guided {s t : List UInt8} (hs : 0 ∉ s) (ht : 0 ∉ t) :
  Compares s t ↔ Guided (folded s) (folded t)
  := by
  rw [compares_iff hs ht]
  match s, t, hs, ht with
  | [], [], _, _ =>
      simp only [folded_nil, Guided, iff_true]
      exact ⟨0, 0, rfl, rfl, by simp [Signed], by simp [Signed]⟩
  | [], d :: t, _, ht =>
      have hd : d ≠ 0 := fun heq => ht (by simp [heq])
      have hnone : stricmp (d :: t) [] = none := stricmp_cons hd t []
      simp [Guided, hnone]
  | c :: s, [], hs, _ =>
      have hc : c ≠ 0 := fun heq => hs (by simp [heq])
      have hnone : stricmp (c :: s) [] = none := stricmp_cons hc s []
      simp [Guided, hnone]
  | c :: s, d :: t, hs, ht =>
      have hc : c ≠ 0 := fun heq => hs (by simp [heq])
      have hd : d ≠ 0 := fun heq => ht (by simp [heq])
      rw [stricmp_cons hc, stricmp_cons hd, folded_cons, folded_cons, Guided]
      simp only [Option.map_eq_some_iff, Option.mem_def]
      constructor
      · rintro ⟨_, _, ⟨z, hz, rfl⟩, ⟨z', hz', rfl⟩, hsigned⟩
        exact ⟨z, hz, z', hz', signed_sub_iff.mp hsigned⟩
      · rintro ⟨z, hz, z', hz', hside⟩
        exact ⟨_, _, ⟨z, hz, rfl⟩, ⟨z', hz', rfl⟩, signed_sub_iff.mpr hside⟩

/-- The theorem applied to the strings `ab` and `bac`. -/
theorem compares_iff_guided_ab :
  Compares [97, 98] [98, 97, 99] ↔ Guided (folded [97, 98]) (folded [98, 97, 99])
  := compares_iff_guided (by decide) (by decide)

/-- The function `stricmp` reads behind the terminating zero of the strings `a` and `A`. -/
theorem not_compares_equal :
  stricmp [97] [65] = none ∧ ¬ Compares [97] [65]
  := by
  have hnone : stricmp [97] [65] = none := by decide
  refine ⟨hnone, ?_⟩
  rintro ⟨r, r', hr, -⟩
  rw [hnone] at hr
  cases hr

end Etaos.Crt
