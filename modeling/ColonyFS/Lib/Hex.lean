import Mathlib

/-!
# Hexadecimal numbers in text streams

`padded w n` is what `setw(w) << hex << n` writes, `read size` what `>> hex` makes of a text for an
unsigned type of `size` values: blanks, a sign, `0x`, and the longest run of digits.
-/

namespace Hex

def padded (w n : Nat) : List Char := List.leftpad w ' ' (Nat.toDigits 16 n)

/-- `std::isspace`. -/
def isSpace (c : Char) : Bool := [' ', '\t', '\n', '\x0b', '\x0c', '\r'].contains c

def digit? (c : Char) : Option Nat :=
  if '0' ≤ c ∧ c ≤ '9' then some (c.toNat - '0'.toNat)
  else if 'a' ≤ c ∧ c ≤ 'f' then some (c.toNat - 'a'.toNat + 10)
  else if 'A' ≤ c ∧ c ≤ 'F' then some (c.toNat - 'A'.toNat + 10)
  else none

/-- The digits at the front of a text. -/
def digits : List Char → List Nat
  | [] => []
  | c :: s => match digit? c with
    | some d => d :: digits s
    | none => []

def ofDigits (ds : List Nat) : Nat := ds.foldl (16 * · + ·) 0

/-- Whether there is a minus sign, and the text after the sign. -/
def signed : List Char → Bool × List Char
  | '-' :: s => (true, s)
  | '+' :: s => (false, s)
  | s => (false, s)

/-- The text after `0x`. -/
def unprefixed : List Char → List Char
  | '0' :: 'x' :: s => s
  | '0' :: 'X' :: s => s
  | s => s

/-- A number with a minus sign wraps around; no digits, or too large a number, is a failure. -/
def read (size : Nat) (s : List Char) : Option Nat :=
  let (minus, s) := signed (s.dropWhile isSpace)
  match digits (unprefixed s) with
  | [] => none
  | ds =>
    if ofDigits ds < size then
      some (if minus then (size - ofDigits ds) % size else ofDigits ds)
    else none

variable {w n k size : Nat} {c : Char} {s : List Char}

theorem digit?_digitChar (h : n < 16) : digit? n.digitChar = some n := by
  interval_cases n <;> rfl

theorem digits_concat (hs : ∀ c ∈ s, (digit? c).isSome) (hc : digit? c = some n) :
    digits (s ++ [c]) = digits s ++ [n] := by
  induction s with
  | nil => simp only [List.nil_append, digits, hc]
  | cons b s ih =>
    obtain ⟨hb, hs⟩ := List.forall_mem_cons.mp hs
    obtain ⟨d, hd⟩ := Option.isSome_iff_exists.mp hb
    simp only [List.cons_append, digits, hd, ih hs]

theorem isSome_of_mem_toDigits (n : Nat) : ∀ c ∈ Nat.toDigits 16 n, (digit? c).isSome := by
  induction n using Nat.strongRecOn with
  | ind n ih =>
    intro c hc
    rw [Nat.toDigits_eq_if (by decide)] at hc
    split at hc
    · next hlt =>
      rw [List.mem_singleton.mp hc, digit?_digitChar hlt]
      rfl
    · rcases List.mem_append.mp hc with hc | hc
      · exact ih (n / 16) (by omega) c hc
      · rw [List.mem_singleton.mp hc, digit?_digitChar (Nat.mod_lt n (by decide))]
        rfl

theorem ofDigits_toDigits (n : Nat) : ofDigits (digits (Nat.toDigits 16 n)) = n := by
  induction n using Nat.strongRecOn with
  | ind n ih =>
    rw [Nat.toDigits_eq_if (by decide)]
    split
    · next hlt => simp [digits, digit?_digitChar hlt, ofDigits]
    · have hmod : n % 16 < 16 := Nat.mod_lt n (by decide)
      have hdiv := ih (n / 16) (by omega)
      rw [digits_concat (isSome_of_mem_toDigits _) (digit?_digitChar hmod), ofDigits,
        List.foldl_append, ← ofDigits, hdiv, List.foldl_cons, List.foldl_nil]
      exact Nat.div_add_mod n 16

/-! ## A text of digits has no blanks, no sign and no `0x` -/

theorem not_isSpace (h : (digit? c).isSome) : isSpace c = false := by
  rw [Bool.eq_false_iff]
  intro hc
  simp only [isSpace, List.contains_eq_mem, decide_eq_true_eq, List.mem_cons, List.not_mem_nil,
    or_false] at hc
  rcases hc with rfl | rfl | rfl | rfl | rfl | rfl <;> exact absurd h (by decide)

theorem signed_of_isSome (h : ∀ c ∈ s, (digit? c).isSome) : signed s = (false, s) := by
  rw [signed.eq_def]
  split
  · exact absurd (h _ List.mem_cons_self) (by decide)
  · exact absurd (h _ List.mem_cons_self) (by decide)
  · rfl

theorem unprefixed_of_isSome (h : ∀ c ∈ s, (digit? c).isSome) : unprefixed s = s := by
  rw [unprefixed.eq_def]
  split
  · exact absurd (h 'x' (by simp)) (by decide)
  · exact absurd (h 'X' (by simp)) (by decide)
  · rfl

theorem dropWhile_leftpad (h : ∀ c ∈ s, (digit? c).isSome) :
    (List.leftpad w ' ' s).dropWhile isSpace = s := by
  rw [List.leftpad, List.dropWhile_append_of_pos fun c hc => by
    rw [List.eq_of_mem_replicate hc]; rfl]
  cases s with
  | nil => rfl
  | cons c s =>
    rw [List.dropWhile_cons_of_neg]
    simpa using not_isSpace (h c List.mem_cons_self)

/-- What is written is read. -/
theorem read_padded (h : n < size) : read size (padded w n) = some n := by
  have hall := isSome_of_mem_toDigits n
  have hne : digits (Nat.toDigits 16 n) ≠ [] := by
    cases hs : Nat.toDigits 16 n with
    | nil => exact (Nat.toDigits_ne_nil hs).elim
    | cons c s =>
      obtain ⟨d, hd⟩ := Option.isSome_iff_exists.mp (hall c (hs ▸ List.mem_cons_self))
      simp only [digits, hd]
      exact List.cons_ne_nil d _
  rw [read, padded, dropWhile_leftpad hall, signed_of_isSome hall]
  simp only
  rw [unprefixed_of_isSome hall]
  split
  · next hnil => exact (hne hnil).elim
  · rw [ofDigits_toDigits, if_pos h]
    rfl

/-! ## How large a number can be read -/

/-- A minus sign in front of a number other than zero. -/
def Negative (s : List Char) : Prop :=
  (signed (s.dropWhile isSpace)).1 = true ∧
    0 < ofDigits (digits (unprefixed (signed (s.dropWhile isSpace)).2))

instance (s : List Char) : Decidable (Negative s) := inferInstanceAs (Decidable (_ ∧ _))

theorem digit?_lt (h : digit? c = some n) : n < 16 := by
  have hle : ∀ {a b : Char}, a ≤ b → a.toNat ≤ b.toNat := fun h => h
  simp only [digit?] at h
  split at h
  · next hc =>
    cases h
    have := hle hc.2
    simp only [Char.reduceToNat] at this ⊢
    omega
  · split at h
    · next hc =>
      cases h
      have := hle hc.2
      simp only [Char.reduceToNat] at this ⊢
      omega
    · split at h
      · next hc =>
        cases h
        have := hle hc.2
        simp only [Char.reduceToNat] at this ⊢
        omega
      · cases h

theorem lt_of_mem_digits (s : List Char) : ∀ d ∈ digits s, d < 16 := by
  induction s with
  | nil => simp [digits]
  | cons c s ih =>
    intro d hd
    simp only [digits] at hd
    split at hd
    · next n hn =>
      obtain rfl | hd := List.mem_cons.mp hd
      · exact digit?_lt hn
      · exact ih d hd
    · cases hd

theorem length_digits_le (s : List Char) : (digits s).length ≤ s.length := by
  induction s with
  | nil => exact Nat.le_refl _
  | cons c s ih =>
    simp only [digits]
    split
    · exact Nat.succ_le_succ ih
    · exact Nat.zero_le _

theorem foldl_lt {ds : List Nat} (h : ∀ d ∈ ds, d < 16) (n : Nat) :
    ds.foldl (16 * · + ·) n < (n + 1) * 16 ^ ds.length := by
  induction ds generalizing n with
  | nil => simp
  | cons d ds ih =>
    obtain ⟨hd, h⟩ := List.forall_mem_cons.mp h
    calc (d :: ds).foldl (16 * · + ·) n < (16 * n + d + 1) * 16 ^ ds.length := ih h _
      _ ≤ (16 * (n + 1)) * 16 ^ ds.length := Nat.mul_le_mul_right _ (by omega)
      _ = (n + 1) * 16 ^ (d :: ds).length := by rw [List.length_cons, pow_succ]; ring

theorem length_unprefixed_le (s : List Char) : (unprefixed s).length ≤ s.length := by
  rw [unprefixed.eq_def]
  split
  · simp only [List.length_cons]
    omega
  · simp only [List.length_cons]
    omega
  · exact Nat.le_refl _

theorem length_signed_le (s : List Char) : (signed s).2.length ≤ s.length := by
  rw [signed.eq_def]
  split
  · simp only [List.length_cons]
    omega
  · simp only [List.length_cons]
    omega
  · exact Nat.le_refl _

/-- A text of `k` characters has a number below `16 ^ k`. -/
theorem ofDigits_lt (s : List Char) :
    ofDigits (digits (unprefixed (signed (s.dropWhile isSpace)).2)) < 16 ^ s.length := by
  have hlen : (digits (unprefixed (signed (s.dropWhile isSpace)).2)).length ≤ s.length := by
    calc _ ≤ _ := length_digits_le _
      _ ≤ _ := length_unprefixed_le _
      _ ≤ _ := length_signed_le _
      _ ≤ s.length := List.length_dropWhile_le _ _
  have hlt := foldl_lt (lt_of_mem_digits (unprefixed (signed (s.dropWhile isSpace)).2)) 0
  rw [Nat.zero_add, one_mul] at hlt
  exact Nat.lt_of_lt_of_le hlt (Nat.pow_le_pow_right (by decide) hlen)

/-- A text that is not a negative number is read as its number. -/
theorem lt_of_read (hs : ¬Negative s) (h : read size s = some n) : n < 16 ^ s.length := by
  have hlt := ofDigits_lt s
  simp only [read] at h
  split at h
  · cases h
  · next ds hds =>
    split at h
    · next hsize =>
      split at h
      · next hminus =>
        cases h
        have hzero := Nat.eq_zero_of_not_pos fun hpos => hs ⟨hminus, hpos⟩
        rw [hzero, Nat.sub_zero, Nat.mod_self]
        exact Nat.pow_pos (by decide)
      · cases h
        exact hlt
    · cases h

/-- A negative number wraps around. -/
theorem read_of_negative (hs : Negative s) (hsize : 16 ^ s.length ≤ size) :
    ∃ n, 0 < n ∧ n < 16 ^ s.length ∧ read size s = some (size - n) := by
  obtain ⟨hminus, hpos⟩ := hs
  have hlt := ofDigits_lt s
  refine ⟨_, hpos, hlt, ?_⟩
  simp only [read]
  split
  · next hnil =>
    rw [hnil] at hpos
    exact absurd hpos (Nat.lt_irrefl _)
  · next ds hds =>
    rw [if_pos (Nat.lt_of_lt_of_le hlt hsize), if_pos hminus, Nat.mod_eq_of_lt (by omega)]

/-- A number fills the width if and only if it has that many digits at most. -/
theorem length_padded (hw : 0 < w) : (padded w n).length = w ↔ n < 16 ^ w := by
  rw [padded, List.length_leftpad, ← Nat.length_toDigits_le_iff (by decide) hw]
  omega

end Hex
