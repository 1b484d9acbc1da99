import Mathlib.Data.Nat.Digits.Defs
import Mathlib.Data.UInt
import Cs162Hw.Library.Buffer
import Cs162Hw.Kv.Message

/-!
# Numbers in strings

What `printf` and the number functions of the C library make of numbers: `"%d"` of a number that
is not negative (`decimal`), `atoi`, and `strtol` on a buffer. A number that was printed is read back
(`atoi_decimal`, `Rest.strtol_decimal`).
-/

namespace Cs162Hw.Kv

open Library

/-- `"%d"`, of a number that is not negative. -/
def decimal (n : ℕ) : CString where
  bytes := if n = 0 then [48] else (Nat.digits 10 n).reverse.map fun d => UInt8.ofNat (48 + d)
  nul h := by
    split_ifs at h with hn
    · simp at h
    · obtain ⟨d, hd, h0⟩ := List.mem_map.mp h
      have hlt := Nat.digits_lt_base (by norm_num) (List.mem_reverse.mp hd)
      have := congrArg UInt8.toNat h0
      simp at this
      omega

/-- The number that starts with the digits of `bytes`. -/
def number (bytes : List UInt8) : ℕ :=
  (bytes.takeWhile fun b => 48 ≤ b ∧ b ≤ 57).foldl (fun n b => n * 10 + (b.toNat - 48)) 0

/-- `atoi`. -/
def atoi (s : CString) : ℤ :=
  match s.bytes.dropWhile fun b => b = 32 ∨ 9 ≤ b ∧ b ≤ 13 with
  | 45 :: rest => -number rest
  | 43 :: rest => number rest
  | rest => number rest

/-- `"%s:%s"`. -/
def colon (s t : CString) : CString where
  bytes := s.bytes ++ 58 :: t.bytes
  nul h := by
    rcases List.mem_append.mp h with h | h
    · exact s.nul h
    · rcases List.mem_cons.mp h with h | h
      · cases h
      · exact t.nul h

/-- The bytes of a printed number are digits. -/
theorem digit_of_mem_decimal {n : ℕ} {b : UInt8} (hb : b ∈ (decimal n).bytes) :
    (48 ≤ b ∧ b ≤ 57) ∧ ¬ (b = 32 ∨ 9 ≤ b ∧ b ≤ 13) ∧ b ≠ 45 ∧ b ≠ 43 := by
  have hten : ∀ d < 10, let b := UInt8.ofNat (48 + d)
      (48 ≤ b ∧ b ≤ 57) ∧ ¬ (b = 32 ∨ 9 ≤ b ∧ b ≤ 13) ∧ b ≠ 45 ∧ b ≠ 43 := by decide
  simp only [decimal] at hb
  split_ifs at hb with hn
  · obtain rfl := List.mem_singleton.mp hb
    decide
  · obtain ⟨d, hd, rfl⟩ := List.mem_map.mp hb
    exact hten d (Nat.digits_lt_base (by norm_num) (List.mem_reverse.mp hd))

/-- From 100 on, and below 1000, a number has three digits. -/
theorem length_decimal_eq_three {n : ℕ} (hle : 100 ≤ n) (hlt : n < 1000) : (decimal n).bytes.length = 3 := by
  have hne : ¬ n = 0 := by omega
  have hlast : n / 10 / 10 / 10 = 0 := by omega
  simp only [decimal, if_neg hne]
  rw [List.length_map, List.length_reverse, Nat.digits_def' (by decide) (by omega), Nat.digits_def' (by decide) (by omega),
    Nat.digits_def' (by decide) (by omega), hlast, Nat.digits_zero]
  rfl

theorem number_decimal (n : ℕ) : number (decimal n).bytes = n := by
  have htake : (decimal n).bytes.takeWhile (fun b => decide (48 ≤ b ∧ b ≤ 57)) = (decimal n).bytes :=
    List.takeWhile_eq_self_iff.mpr fun b hb => by simpa using (digit_of_mem_decimal hb).1
  have hdigits : ∀ l : List ℕ, (∀ d ∈ l, d < 10) →
      l.foldr (fun d n => n * 10 + ((UInt8.ofNat (48 + d)).toNat - 48)) 0 = Nat.ofDigits 10 l := by
    intro l
    induction l with
    | nil => exact fun _ => rfl
    | cons d l ih =>
      intro hlt
      have hd := hlt d List.mem_cons_self
      have hbyte : (UInt8.ofNat (48 + d)).toNat = 48 + d := by simp; omega
      rw [List.foldr_cons, ih fun e he => hlt e (List.mem_cons_of_mem _ he), hbyte, Nat.ofDigits_cons]
      omega
  rw [number, htake, decimal]
  simp only
  split_ifs with hn
  · simp [hn]
  · rw [List.foldl_map, List.foldl_reverse, hdigits _ fun d hd => Nat.digits_lt_base (by norm_num) hd,
      Nat.ofDigits_digits]

/-- Reading back a number that was printed. -/
theorem atoi_decimal (n : ℕ) : atoi (decimal n) = n := by
  have hdrop : (decimal n).bytes.dropWhile (fun b => decide (b = 32 ∨ 9 ≤ b ∧ b ≤ 13)) = (decimal n).bytes := by
    refine List.dropWhile_eq_self_iff.mpr fun hlen => ?_
    simpa using (digit_of_mem_decimal (List.getElem_mem hlen)).2.1
  have hhead : ∀ b rest, (decimal n).bytes = b :: rest → b ≠ 45 ∧ b ≠ 43 := fun b rest h =>
    (digit_of_mem_decimal (h ▸ List.mem_cons_self)).2.2
  unfold atoi
  rw [hdrop]
  split
  · next rest h => exact absurd rfl (hhead _ _ h).1
  · next rest h => exact absurd rfl (hhead _ _ h).2
  · rw [number_decimal]

/-! ## `strtol` -/

/-- `isspace`. -/
def isSpace (b : UInt8) : Bool := b = 32 ∨ 9 ≤ b ∧ b ≤ 13

/-- `isdigit`. -/
def isDigit (b : UInt8) : Bool := 48 ≤ b ∧ b ≤ 57

/-- What a `long` holds of a number that is too large. -/
def clampLong (n : ℤ) : ℤ := max (-2 ^ 63) (min n (2 ^ 63 - 1))

/-- `strtol`, to the base 10: the number at position `p`, and where it ends. Without digits it ends
where it starts. -/
def strtol (b : List UInt8) (p : ℕ) : Parse (ℤ × ℕ) := do
  let s ← strAt b p
  let blanks := s.takeWhile isSpace
  let t := s.drop blanks.length
  let (sign, signLen) : ℤ × ℕ :=
    match t.head? with
    | some 45 => (-1, 1)
    | some 43 => (1, 1)
    | _ => (1, 0)
  let t := t.drop signLen
  let digits := t.takeWhile isDigit
  if digits = [] then return (0, p)
  else return (clampLong (sign * number t), p + blanks.length + signLen + digits.length)

theorem isDigit_of_mem_decimal {n : ℕ} {b : UInt8} (hb : b ∈ (decimal n).bytes) : isDigit b = true := by
  simpa [isDigit] using (digit_of_mem_decimal hb).1

theorem decimal_ne_nil (n : ℕ) : (decimal n).bytes ≠ [] := by
  simp only [decimal]
  split_ifs with hn
  · simp
  · simpa [Nat.digits_eq_nil_iff_eq_zero] using hn

/-- A number ends before the first character that is no digit. -/
theorem number_append {w s : List UInt8} (hw : ∀ b ∈ w, isDigit b = true) (hs : ∀ b ∈ s.head?, isDigit b = false) :
    (w ++ s).takeWhile isDigit = w ∧ number (w ++ s) = number w := by
  have hnil : s.takeWhile isDigit = [] := by
    cases s with
    | nil => rfl
    | cons b s => exact List.takeWhile_cons_of_neg (by simp [hs b rfl])
  have htake : (w ++ s).takeWhile isDigit = w := by rw [List.takeWhile_append_of_pos hw, hnil, List.append_nil]
  have hself : w.takeWhile isDigit = w := List.takeWhile_eq_self_iff.mpr hw
  have hfold : ∀ l : List UInt8, number l = (l.takeWhile isDigit).foldl (fun n b => n * 10 + (b.toNat - 48)) 0 :=
    fun _ => rfl
  exact ⟨htake, by rw [hfold, hfold, htake, hself]⟩

/-- Reading back a printed number that fits a `long`, before something that is no digit. -/
theorem Rest.strtol_decimal {b s : List UInt8} {p n : ℕ} (h : Rest b p ((decimal n).bytes ++ s)) (hn : n < 2 ^ 63)
    (hs : ∀ c ∈ (untilNul s).head?, isDigit c = false) : strtol b p = .ok (n, p + (decimal n).bytes.length) := by
  obtain ⟨d, ds, hd⟩ := List.exists_cons_of_ne_nil (decimal_ne_nil n)
  have hdigit := digit_of_mem_decimal (n := n) (b := d) (hd ▸ List.mem_cons_self)
  have hspace : isSpace d = false := by simpa [isSpace] using hdigit.2.1
  have hstr := h.strAt
  rw [untilNul_append (decimal n).nul] at hstr
  obtain ⟨htake, hnumber⟩ := number_append (fun _ => isDigit_of_mem_decimal (n := n)) hs
  have hblank : ((decimal n).bytes ++ untilNul s).takeWhile isSpace = [] := by
    rw [hd, List.cons_append, List.takeWhile_cons_of_neg (by simp [hspace])]
  have hhead : ((decimal n).bytes ++ untilNul s).head? = some d := by rw [hd]; rfl
  have hsign : (match some d with
      | some 45 => (-1, 1)
      | some 43 => (1, 1)
      | _ => (1, 0) : ℤ × ℕ) = (1, 0) := by
    split
    · next heq => exact absurd (Option.some.inj heq) hdigit.2.2.1
    · next heq => exact absurd (Option.some.inj heq) hdigit.2.2.2
    · rfl
  have hclamp : clampLong (1 * n) = n := by rw [clampLong]; omega
  rw [strtol, hstr]
  simp only [Parse.ok_bind, hblank, List.length_nil, List.drop_zero, hhead]
  rw [hsign]
  simp only [List.drop_zero, htake, hnumber, number_decimal, hclamp, if_neg (decimal_ne_nil n), Nat.add_zero]
  rfl

end Cs162Hw.Kv
