import Mathlib

/-!
# First occurrences and hexadecimal numerals

Two pieces of text processing that file-name schemes are built from: the first
occurrence of a pattern in a text, and the numeral of a number in base sixteen.

A pattern is *borderless* when none of its proper end parts is also one of its
front parts.  Appending such a pattern to a text without it puts its first
occurrence exactly where it was appended.

## Main definitions

* `findInfix pat s` — the rest of `s` from the first occurrence of `pat` on.
* `Borderless pat` — `pat` does not overlap itself.
* `isHexDigit`, `hex` — the digits of base sixteen, and the numeral of a number.

## Main results

* `findInfix_append` — where a borderless pattern occurs first.
* `hex_inj` — different numbers have different numerals.
-/

namespace DatalogDafsa.Text

/-! ## First occurrences -/

/-- The rest of `s` from the first occurrence of `pat` on (`strstr`). -/
def findInfix (pat : List Char) : List Char → Option (List Char)
  | [] => if pat.isPrefixOf [] then some [] else none
  | c :: s => if pat.isPrefixOf (c :: s) then some (c :: s) else findInfix pat s

/-- No proper end part of `pat` is a front part of it. -/
def Borderless (pat : List Char) : Prop :=
  ∀ k < pat.length, 0 < k → ¬ pat.drop k <+: pat

instance (pat : List Char) : Decidable (Borderless pat) :=
  inferInstanceAs (Decidable (∀ k < pat.length, 0 < k → ¬ pat.drop k <+: pat))

/-- An occurrence that starts inside `u` and ends behind it would be a border. -/
private theorem not_prefix_append {pat u : List Char} (hb : Borderless pat) (hu : u ≠ [])
    (hn : ¬ pat <+: u) (rest : List Char) : ¬ pat <+: u ++ (pat ++ rest) := by
  intro h
  rcases le_or_gt pat.length u.length with hle | hlt
  · exact hn (List.prefix_of_prefix_length_le h (List.prefix_append _ _) hle)
  · obtain ⟨t, ht⟩ := List.prefix_of_prefix_length_le (List.prefix_append u _) h hlt.le
    have htl : t.length < pat.length := by
      have := List.length_pos_of_ne_nil hu
      rw [← ht, List.length_append]
      omega
    have hrest : t <+: pat ++ rest := by
      rw [← ht] at h ⊢
      simpa using h
    refine hb u.length hlt (List.length_pos_of_ne_nil hu) ?_
    have hdrop : pat.drop u.length = t := by rw [← ht]; simp
    rw [hdrop]
    exact List.prefix_of_prefix_length_le hrest (List.prefix_append _ _) htl.le

/-- **The first occurrence of an appended pattern** is where it was appended. -/
theorem findInfix_append {pat : List Char} (hb : Borderless pat) (hne : pat ≠ []) {s : List Char}
    (hs : findInfix pat s = none) (rest : List Char) :
    findInfix pat (s ++ (pat ++ rest)) = some (pat ++ rest) := by
  induction s with
  | nil =>
    obtain ⟨c, p, rfl⟩ := List.exists_cons_of_ne_nil hne
    have h : (c :: p).isPrefixOf (c :: (p ++ rest)) = true := by
      rw [List.isPrefixOf_iff_prefix]
      exact List.prefix_append (c :: p) rest
    simp only [List.nil_append, List.cons_append, findInfix, if_pos h]
  | cons c s ih =>
    have hc : ¬ pat <+: c :: s := by
      intro h
      simp [findInfix, h] at hs
    have hs' : findInfix pat s = none := by
      simpa [findInfix, hc] using hs
    have hno : ¬ pat <+: c :: (s ++ (pat ++ rest)) := by
      simpa using not_prefix_append hb (List.cons_ne_nil c s) hc rest
    simp only [List.cons_append, findInfix, List.isPrefixOf_iff_prefix, if_neg hno]
    exact ih hs'

/-- The last run of characters with a property is determined by the text, when the
character before it does not have the property. -/
theorem last_run_inj {p : Char → Bool} {u v a b : List Char} {c d : Char}
    (ha : ∀ x ∈ a, p x = true) (hb : ∀ x ∈ b, p x = true) (hc : p c = false) (hd : p d = false)
    (h : u ++ c :: a = v ++ d :: b) : a = b := by
  have hrun : ∀ {w r : List Char} {e : Char}, (∀ x ∈ r, p x = true) → p e = false →
      (w ++ e :: r).reverse.takeWhile p = r.reverse := by
    intro w r e hr he
    rw [List.reverse_append, List.reverse_cons, List.append_assoc,
      List.takeWhile_append_of_pos (fun x hx => hr x (List.mem_reverse.1 hx)),
      List.singleton_append, List.takeWhile_cons_of_neg (by simp [he]), List.append_nil]
  have := hrun (w := u) ha hc
  rw [h, hrun hb hd] at this
  exact List.reverse_injective this.symm

/-! ## Hexadecimal numerals -/

/-- A digit of base sixteen, in lower case. -/
def isHexDigit (c : Char) : Bool := ('0' ≤ c && c ≤ '9') || ('a' ≤ c && c ≤ 'f')

/-- The numeral of `n` in base sixteen (`%x`). -/
def hex (n : ℕ) : List Char := Nat.toDigits 16 n

/-- The value of one digit. -/
private def hexVal (c : Char) : ℕ := if c ≤ '9' then c.toNat - 48 else c.toNat - 87

private theorem digit_facts : ∀ d < 16,
    isHexDigit (Nat.digitChar d) = true ∧ hexVal (Nat.digitChar d) = d := by
  decide

theorem hex_eq (n : ℕ) :
    hex n = (if n < 16 then [] else hex (n / 16)) ++ [Nat.digitChar (n % 16)] := by
  unfold hex
  rw [Nat.toDigits_eq_if (by omega)]
  split
  · next h => rw [Nat.mod_eq_of_lt h, List.nil_append]
  · rfl

theorem hex_ne_nil (n : ℕ) : hex n ≠ [] := by
  rw [hex_eq]
  simp

theorem isHexDigit_of_mem_hex {n : ℕ} {c : Char} (h : c ∈ hex n) : isHexDigit c = true := by
  induction n using Nat.strong_induction_on with
  | _ n ih =>
    rw [hex_eq] at h
    rcases List.mem_append.1 h with hc | hc
    · split at hc
      · cases hc
      · next hn => exact ih (n / 16) (by omega) hc
    · rw [List.mem_singleton.1 hc]
      exact (digit_facts _ (Nat.mod_lt _ (by omega))).1

/-- Reading a numeral back gives the number. -/
private theorem foldl_hexVal_hex (n : ℕ) : (hex n).foldl (fun v c => 16 * v + hexVal c) 0 = n := by
  induction n using Nat.strong_induction_on with
  | _ n ih =>
    rw [hex_eq, List.foldl_append, List.foldl_cons, List.foldl_nil,
      (digit_facts _ (Nat.mod_lt n (by omega))).2]
    split
    · simp only [List.foldl_nil]
      omega
    · rw [ih (n / 16) (by omega)]
      omega

/-- **Different numbers have different numerals.** -/
theorem hex_inj {m n : ℕ} (h : hex m = hex n) : m = n := by
  rw [← foldl_hexVal_hex m, ← foldl_hexVal_hex n, h]

end DatalogDafsa.Text
