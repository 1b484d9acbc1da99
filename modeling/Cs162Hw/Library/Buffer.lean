import Mathlib.Data.List.TakeWhile
import Mathlib.Data.List.Infix

/-!
# Scanning a buffer

Parsers written with the string functions of C: they go through a buffer that ends with a
terminator, `0`, and remember positions in it. A buffer is the list of its characters, the
terminator behind them not written; there may be further terminators among them, and every string
function stops at the first it meets.

* `Parse` is what such a parser comes to: a result, a refusal, or a `fault`, when it looks where the
  buffer is not.
* `charAt`, `strAt`, `strchr`, `strstr`, `strneq` and `skipWhile` are `p[i]`, the string at a
  position, and the functions of `string.h`, from a position of the buffer; `scan` is a loop of the parser's
  own, with nothing to stop it at a terminator but the class of characters it goes on for.
* `Rest b p s` says that the buffer goes on with `s` at position `p`. Each function has its lemma
  about what it finds there; positions are never computed.
-/

namespace Cs162Hw.Library

/-! ## What a parser comes to -/

/-- What a parser comes to. -/
inductive Parse (α : Type) where
  /-- It reads or writes where it must not, or does not end. -/
  | fault
  /-- It refuses its input. -/
  | reject
  /-- It returns. -/
  | ok (a : α)
  deriving DecidableEq

namespace Parse

variable {α β γ : Type}

/-- `x`, then `f` on its result. -/
def bind : Parse α → (α → Parse β) → Parse β
  | fault, _ => fault
  | reject, _ => reject
  | ok a, f => f a

instance : Monad Parse where
  pure := ok
  bind := bind

@[simp] theorem ok_bind (a : α) (f : α → Parse β) : (ok a >>= f) = f a := rfl

@[simp] theorem reject_bind (f : α → Parse β) : (reject >>= f) = reject := rfl

@[simp] theorem fault_bind (f : α → Parse β) : (fault >>= f) = fault := rfl

@[simp] theorem pure_eq (a : α) : (pure a : Parse α) = ok a := rfl

theorem bind_assoc (x : Parse α) (f : α → Parse β) (g : β → Parse γ) : ((x >>= f) >>= g) = x >>= fun a => f a >>= g := by
  cases x <;> rfl

/-- What does the same with each result of its first part. -/
theorem bind_congr {x : Parse α} {f g : α → Parse β} (h : ∀ a, f a = g a) : (x >>= f) = x >>= g :=
  congrArg (x >>= ·) (funext h)

/-- What returns has got a result from each of its parts. -/
theorem bind_eq_ok {x : Parse α} {f : α → Parse β} {b : β} : (x >>= f) = ok b ↔ ∃ a, x = ok a ∧ f a = ok b := by
  constructor
  · intro h
    cases x with
    | fault => cases h
    | reject => cases h
    | ok a => exact ⟨a, rfl, h⟩
  · rintro ⟨a, rfl, h⟩
    exact h

/-- Without a fault, it returns or refuses. -/
theorem ne_fault_iff {x : Parse α} : x ≠ fault ↔ x = reject ∨ ∃ a, x = ok a := by
  cases x with
  | fault => simp
  | reject => simp
  | ok a => simp

/-- A search with a test that always returns. -/
theorem anyM_eq {l : List α} {f : α → Parse Bool} {g : α → Bool} (h : ∀ a ∈ l, f a = ok (g a)) : l.anyM f = ok (l.any g) := by
  induction l with
  | nil => rfl
  | cons a l ih =>
    rw [List.anyM_cons, h a List.mem_cons_self, ih fun a' ha' => h a' (List.mem_cons_of_mem _ ha'), List.any_cons]
    cases g a <;> rfl

end Parse

/-! ## The string functions -/

section Functions

variable {α : Type} [Zero α] [DecidableEq α]

/-- The characters before the first terminator. -/
def untilNul (s : List α) : List α := s.takeWhile (· ≠ 0)

omit [DecidableEq α] in
/-- The character at position `p`. -/
def charAt (b : List α) (p : ℕ) : Parse α := if p ≤ b.length then .ok (b.getD p 0) else .fault

/-- The string that starts at position `p`. -/
def strAt (b : List α) (p : ℕ) : Parse (List α) := if p ≤ b.length then .ok (untilNul (b.drop p)) else .fault

/-- `strchr`: where `c`, which is not the terminator, first occurs. -/
def strchr (b : List α) (p : ℕ) (c : α) : Parse (Option ℕ) := do
  let s ← strAt b p
  return (s.idxOf? c).map (p + ·)

omit [Zero α] in
/-- Where `pat` first occurs in a list. -/
def find (pat : List α) : List α → Option ℕ
  | [] => if pat = [] then some 0 else none
  | c :: s => if pat.isPrefixOf (c :: s) then some 0 else (find pat s).map (· + 1)

/-- `strstr`: where `pat` first occurs. -/
def strstr (b : List α) (p : ℕ) (pat : List α) : Parse (Option ℕ) := do
  let s ← strAt b p
  return (find pat s).map (p + ·)

/-- `!strncmp`: is there no difference between the first `n` characters and those of the string `t`? -/
def strneq (b : List α) (p : ℕ) (t : List α) (n : ℕ) : Parse Bool := do
  let s ← strAt b p
  return s.take n = t.take n

/-- The first position from `p` on whose character is not in the class `f`; the terminator is not. -/
def skipWhile (b : List α) (p : ℕ) (f : α → Bool) : Parse ℕ := do
  let s ← strAt b p
  return p + (s.takeWhile f).length

omit [Zero α] [DecidableEq α] in
/-- The characters from position `p` to before position `q`. -/
def slice (b : List α) (p q : ℕ) : List α := (b.drop p).take (q - p)

/-- A loop that goes on, one character after another, while the character is in the class `f`. -/
def scanFrom (b : List α) (f : α → Bool) : ℕ → ℕ → Parse ℕ
  | 0, _ => .fault
  | fuel + 1, p => do
    if f (← charAt b p) then scanFrom b f fuel (p + 1) else return p

/-- Where such a loop ends. It looks at each character of the buffer once, or leaves it. -/
def scan (b : List α) (p : ℕ) (f : α → Bool) : Parse ℕ := scanFrom b f (b.length + 1) p

end Functions

/-! ## What they find -/

section Rest

variable {α : Type} {b s w : List α} {p : ℕ} {c : α}

/-- The buffer goes on with `s` at position `p`. -/
def Rest (b : List α) (p : ℕ) (s : List α) : Prop := ∃ pre, b = pre ++ s ∧ pre.length = p

namespace Rest

theorem of_eq (h : b = s) : Rest b 0 s := ⟨[], h, rfl⟩

theorem start (b : List α) : Rest b 0 b := of_eq rfl

theorem le (h : Rest b p s) : p ≤ b.length := by
  obtain ⟨pre, rfl, rfl⟩ := h
  simp

theorem drop (h : Rest b p s) : b.drop p = s := by
  obtain ⟨pre, rfl, rfl⟩ := h
  exact List.drop_left

theorem length (h : Rest b p s) : p + s.length = b.length := by
  obtain ⟨pre, rfl, rfl⟩ := h
  simp

/-- Past some characters. -/
theorem advance (h : Rest b p (w ++ s)) : Rest b (p + w.length) s := by
  obtain ⟨pre, rfl, rfl⟩ := h
  exact ⟨pre ++ w, (List.append_assoc ..).symm, List.length_append⟩

/-- Past one character. -/
theorem next (h : Rest b p (c :: s)) : Rest b (p + 1) s := advance (w := [c]) h

theorem slice (h : Rest b p (w ++ s)) : slice b p (p + w.length) = w := by
  rw [Library.slice, h.drop, Nat.add_sub_cancel_left, List.take_left]

variable [Zero α] [DecidableEq α]

omit [DecidableEq α] in
theorem charAt_cons (h : Rest b p (c :: s)) : charAt b p = .ok c := by
  obtain ⟨pre, rfl, rfl⟩ := h
  rw [charAt, if_pos (by simp)]
  simp

omit [DecidableEq α] in
theorem charAt_end (b : List α) : charAt b b.length = .ok 0 := by
  rw [charAt, if_pos le_rfl]
  simp

theorem strAt (h : Rest b p s) : strAt b p = .ok (untilNul s) := by
  rw [Library.strAt, if_pos h.le, h.drop]

theorem strneq (h : Rest b p s) (t : List α) (n : ℕ) :
    strneq b p t n = .ok (decide ((untilNul s).take n = t.take n)) := by
  rw [Library.strneq, h.strAt]
  rfl

end Rest

section Nul

variable [Zero α] [DecidableEq α]

theorem untilNul_eq_self (h : 0 ∉ s) : untilNul s = s :=
  List.takeWhile_eq_self_iff.mpr fun c hc => by
    have hne : c ≠ 0 := by rintro rfl; exact h hc
    simpa using hne

/-- Before the first terminator there is everything that has none. -/
theorem untilNul_append (h : 0 ∉ w) (s : List α) : untilNul (w ++ s) = w ++ untilNul s :=
  List.takeWhile_append_of_pos fun c hc => by
    have hne : c ≠ 0 := by rintro rfl; exact h hc
    simpa using hne

theorem untilNul_cons (h : c ≠ 0) (s : List α) : untilNul (c :: s) = c :: untilNul s :=
  List.takeWhile_cons_of_pos (by simpa using h)

theorem notMem_untilNul (s : List α) : 0 ∉ untilNul s := fun h => by simpa using List.mem_takeWhile_imp h

/-- A list begins with its string. -/
theorem untilNul_isInitial (s : List α) : untilNul s <+: s := List.takeWhile_prefix _

end Nul

namespace Rest

variable [Zero α] [DecidableEq α]

/-- The string that stands there is found to be there. -/
theorem strneq_self (h : Rest b p (w ++ s)) (h0 : 0 ∉ w) : Library.strneq b p w w.length = .ok true := by
  rw [h.strneq, untilNul_append h0, List.take_left, List.take_length]
  exact congrArg Parse.ok (decide_eq_true rfl)

/-- `strchr` finds the first. -/
theorem strchr_eq (h : Rest b p (w ++ c :: s)) (hw : c ∉ w) (h0 : 0 ∉ w) (hc : c ≠ 0) :
    strchr b p c = .ok (some (p + w.length)) := by
  have hstr : untilNul (w ++ c :: s) = w ++ c :: untilNul s := by
    rw [untilNul_append h0, untilNul_cons hc]
  have hidx : (w ++ c :: untilNul s).idxOf? c = some w.length := by
    rw [List.idxOf?_eq_some_iff]
    refine ⟨by simp, by simp, fun j hj heq => hw ?_⟩
    rw [List.getElem_append_left hj] at heq
    exact heq ▸ List.getElem_mem hj
  rw [strchr, h.strAt, hstr]
  simp [hidx]

/-- `strchr` finds nothing. -/
theorem strchr_eq_none (h : Rest b p s) (hc : c ∉ untilNul s) : strchr b p c = .ok none := by
  rw [strchr, h.strAt]
  simp [List.idxOf?_eq_none_iff.mpr hc]

/-- `strstr` finds a pattern whose first character does not occur before it. -/
theorem strstr_eq {pat : List α} (h : Rest b p (w ++ (c :: pat) ++ s)) (hw : c ∉ w) (h0 : 0 ∉ w ++ c :: pat) :
    strstr b p (c :: pat) = .ok (some (p + w.length)) := by
  have hfind : ∀ w : List α, c ∉ w → find (c :: pat) (w ++ (c :: pat) ++ untilNul s) = some w.length := by
    intro w
    induction w with
    | nil => exact fun _ => if_pos (by simp)
    | cons d w ih =>
      intro hw
      have hne : c ≠ d := by rintro rfl; exact hw List.mem_cons_self
      have hrest := ih fun hmem => hw (List.mem_cons_of_mem _ hmem)
      rw [List.cons_append, List.cons_append, find, if_neg (by simp [List.isPrefixOf, hne]), hrest]
      rfl
  rw [strstr, h.strAt, untilNul_append h0]
  simp only [Parse.ok_bind, hfind w hw, Option.map_some]
  rfl

/-- `skipWhile` stops before the first character that is not in the class. -/
theorem skipWhile_eq {f : α → Bool} (h : Rest b p (w ++ s)) (hw : ∀ d ∈ w, f d = true) (h0 : 0 ∉ w)
    (hs : ∀ d ∈ (untilNul s).head?, f d = false) : skipWhile b p f = .ok (p + w.length) := by
  have hnil : (untilNul s).takeWhile f = [] := by
    cases hcut : untilNul s with
    | nil => rfl
    | cons d t => exact List.takeWhile_cons_of_neg (by simp [hs d (by rw [hcut]; rfl)])
  rw [skipWhile, h.strAt, untilNul_append h0]
  simp only [Parse.ok_bind, List.takeWhile_append_of_pos hw, hnil, List.append_nil, Parse.pure_eq]

/-- What `strchr` can come to. -/
theorem strchr_cases (h : Rest b p s) (hc : c ≠ 0) : strchr b p c = .ok none ∨
    ∃ w t, s = w ++ c :: t ∧ c ∉ w ∧ 0 ∉ w ∧ strchr b p c = .ok (some (p + w.length)) := by
  by_cases hmem : c ∈ untilNul s
  · right
    obtain ⟨w, t, hw, hcw⟩ := List.eq_append_cons_of_mem hmem
    have h0 : 0 ∉ w := fun h0 => notMem_untilNul s (hw ▸ List.mem_append_left _ h0)
    obtain ⟨t', ht'⟩ := hw ▸ untilNul_isInitial s
    rw [List.append_assoc, List.cons_append] at ht'
    subst ht'
    exact ⟨w, t ++ t', rfl, hcw, h0, h.strchr_eq hcw h0 hc⟩
  · exact Or.inl (h.strchr_eq_none hmem)

/-- What `skipWhile` comes to. -/
theorem skipWhile_cases (h : Rest b p s) (f : α → Bool) : ∃ w t, s = w ++ t ∧ (∀ d ∈ w, f d = true) ∧ 0 ∉ w ∧
    skipWhile b p f = .ok (p + w.length) := by
  obtain ⟨t, ht⟩ := (List.takeWhile_prefix f (l := untilNul s)).trans (untilNul_isInitial s)
  refine ⟨(untilNul s).takeWhile f, t, ht.symm, fun d hd => List.mem_takeWhile_imp hd,
    fun h0 => notMem_untilNul s ((List.takeWhile_prefix f).subset h0), ?_⟩
  rw [skipWhile, h.strAt]
  rfl

omit [DecidableEq α] in
/-- A loop whose class the terminator is not in stays in the buffer. -/
theorem scan_eq {f : α → Bool} (h : Rest b p s) (hf : f 0 = false) : scan b p f = .ok (p + (s.takeWhile f).length) := by
  have hfrom : ∀ {fuel : ℕ}, s.length < fuel → scanFrom b f fuel p = .ok (p + (s.takeWhile f).length) := by
    induction s generalizing p with
    | nil =>
      intro fuel hfuel
      obtain ⟨fuel, rfl⟩ := Nat.exists_eq_succ_of_ne_zero (Nat.ne_zero_of_lt hfuel)
      have hp : p = b.length := h.length
      rw [scanFrom, hp, charAt_end]
      simp [hf]
    | cons c s ih =>
      intro fuel hfuel
      obtain ⟨fuel, rfl⟩ := Nat.exists_eq_succ_of_ne_zero (Nat.ne_zero_of_lt hfuel)
      rw [scanFrom, h.charAt_cons]
      cases hc : f c with
      | false => simp [hc]
      | true =>
        have hrest := ih h.next (Nat.lt_of_succ_lt_succ hfuel)
        simp only [Parse.ok_bind, if_true, hrest, List.takeWhile_cons_of_pos, List.length_cons, Parse.ok.injEq, hc]
        omega
  refine hfrom ?_
  have hlen := h.length
  omega

omit [DecidableEq α] in
/-- What such a loop passes over, and what it stops at. -/
theorem scan_cases {f : α → Bool} (h : Rest b p s) (hf : f 0 = false) : ∃ w t, s = w ++ t ∧ (∀ d ∈ w, f d = true) ∧
    (∀ d ∈ t.head?, f d = false) ∧ scan b p f = .ok (p + w.length) := by
  refine ⟨s.takeWhile f, s.dropWhile f, List.takeWhile_append_dropWhile.symm, fun d hd => List.mem_takeWhile_imp hd,
    fun d hd => ?_, h.scan_eq hf⟩
  have hnot := List.head?_dropWhile_not f s
  rw [Option.mem_def.mp hd] at hnot
  simpa using hnot

omit [DecidableEq α] in
/-- What stands at a position. -/
theorem charAt_cases (h : Rest b p s) : charAt b p = .ok 0 ∨ ∃ d t, s = d :: t ∧ charAt b p = .ok d := by
  cases s with
  | nil =>
    have hlen : p = b.length := h.length
    exact Or.inl (hlen ▸ charAt_end b)
  | cons d t => exact Or.inr ⟨d, t, rfl, h.charAt_cons⟩

end Rest

end Rest

/-! ## Inside the buffer -/

section Inside

variable {α : Type} [Zero α] [DecidableEq α] {b s pat : List α} {p q : ℕ} {c : α}

theorem strAt_of_le (h : p ≤ b.length) : strAt b p = .ok (untilNul (b.drop p)) := if_pos h

theorem strAt_of_lt (h : b.length < p) : strAt b p = .fault := if_neg (Nat.not_le.mpr h)

omit [DecidableEq α] in
theorem charAt_of_le (h : p ≤ b.length) : charAt b p = .ok (b.getD p 0) := if_pos h

theorem strneq_of_le (h : p ≤ b.length) (t : List α) (n : ℕ) :
    strneq b p t n = .ok (decide ((untilNul (b.drop p)).take n = t.take n)) := by
  rw [strneq, strAt_of_le h]
  rfl

theorem strstr_of_le (h : p ≤ b.length) (pat : List α) : strstr b p pat = .ok ((find pat (untilNul (b.drop p))).map (p + ·)) := by
  rw [strstr, strAt_of_le h]
  rfl

theorem strchr_of_le (h : p ≤ b.length) (c : α) : strchr b p c = .ok (((untilNul (b.drop p)).idxOf? c).map (p + ·)) := by
  rw [strchr, strAt_of_le h]
  rfl

theorem skipWhile_of_le (h : p ≤ b.length) (f : α → Bool) :
    skipWhile b p f = .ok (p + ((untilNul (b.drop p)).takeWhile f).length) := by
  rw [skipWhile, strAt_of_le h]
  rfl

/-- A string without a terminator, where the whole of it is compared. -/
theorem strneq_iff {w : List α} (h : p ≤ b.length) (h0 : 0 ∉ w) : strneq b p w w.length = .ok true ↔ w <+: b.drop p := by
  rw [strneq_of_le h, List.take_length, Parse.ok.injEq, decide_eq_true_iff]
  constructor
  · intro heq
    rw [← heq]
    exact (List.take_prefix ..).trans (untilNul_isInitial _)
  · rintro ⟨t, ht⟩
    rw [← ht, untilNul_append h0, List.take_left]

omit [Zero α] in
/-- The pattern stands where it is found. -/
theorem find_eq_some {n : ℕ} (h : find pat s = some n) : pat <+: s.drop n := by
  induction s generalizing n with
  | nil =>
    rw [find] at h
    split_ifs at h with hnil
    rw [hnil]
    exact List.nil_prefix
  | cons c s ih =>
    rw [find] at h
    split_ifs at h with hpat
    · rw [← Option.some.inj h]
      exact List.isPrefixOf_iff_prefix.mp hpat
    · obtain ⟨m, hm, rfl⟩ := Option.map_eq_some_iff.mp h
      exact ih hm

/-- What `strstr` finds is in the buffer. -/
theorem strstr_eq_some (h : p ≤ b.length) (hq : strstr b p pat = .ok (some q)) : p ≤ q ∧ pat <+: b.drop q := by
  rw [strstr_of_le h] at hq
  obtain ⟨n, hn, rfl⟩ := Option.map_eq_some_iff.mp (Parse.ok.inj hq)
  refine ⟨Nat.le_add_right .., (find_eq_some hn).trans ?_⟩
  rw [← List.drop_drop]
  exact (untilNul_isInitial (b.drop p)).drop n

omit [Zero α] [DecidableEq α] in
theorem length_le_of_drop (h : pat <+: b.drop q) (hne : pat ≠ []) : q + pat.length ≤ b.length := by
  have hlen := h.length_le
  have hpos := List.length_pos_iff.mpr hne
  rw [List.length_drop] at hlen
  omega

/-- What `strchr` finds is in the buffer. -/
theorem strchr_eq_some (h : p ≤ b.length) (hq : strchr b p c = .ok (some q)) : p ≤ q ∧ q < b.length := by
  rw [strchr_of_le h] at hq
  obtain ⟨n, hn, rfl⟩ := Option.map_eq_some_iff.mp (Parse.ok.inj hq)
  obtain ⟨hlt, -, -⟩ := List.idxOf?_eq_some_iff.mp hn
  have hlen := (untilNul_isInitial (b.drop p)).length_le
  rw [List.length_drop] at hlen
  omega

omit [DecidableEq α] in
/-- Where nothing is left there is the terminator. -/
theorem Rest.charAt_nil (h : Rest b p []) : charAt b p = .ok 0 := by
  obtain ⟨pre, rfl, rfl⟩ := h
  rw [List.append_nil]
  exact Rest.charAt_end pre

omit [Zero α] in
/-- A pattern is not found where one of its characters does not occur. -/
theorem find_eq_none (hc : c ∈ pat) (hs : c ∉ s) : find pat s = none := by
  cases hfind : find pat s with
  | none => rfl
  | some n => exact absurd (List.drop_subset n s ((find_eq_some hfind).subset hc)) hs

theorem Rest.strstr_eq_none (h : Rest b p s) (hc : c ∈ pat) (hs : c ∉ s) : strstr b p pat = .ok none := by
  rw [strstr, h.strAt]
  exact congrArg Parse.ok (congrArg _ (find_eq_none hc fun hmem => hs ((untilNul_isInitial s).subset hmem)))

omit [DecidableEq α] in
/-- A character that does not occur from `p` on. -/
theorem Rest.charAt_ne (h : Rest b p s) (hc : c ≠ 0) (hs : c ∉ s) (hpq : p ≤ q) (hq : q ≤ b.length) :
    ∃ d, charAt b q = .ok d ∧ d ≠ c := by
  refine ⟨_, charAt_of_le hq, fun heq => ?_⟩
  obtain ⟨pre, rfl, rfl⟩ := h
  rw [List.getD_eq_getElem?_getD, List.getElem?_append_right hpq] at heq
  cases hget : s[q - pre.length]? with
  | none =>
    rw [hget] at heq
    exact hc heq.symm
  | some d =>
    rw [hget] at heq
    obtain rfl : d = c := heq
    exact hs (List.mem_of_getElem? hget)

omit [Zero α] [DecidableEq α] in
/-- The beginnings of a list with a character in it: those that end before it, and those it is in. -/
theorem take_append_cons (w s : List α) (c : α) (k : ℕ) :
    (k ≤ w.length ∧ (w ++ c :: s).take k = w.take k) ∨
      ∃ j, k = w.length + 1 + j ∧ (w ++ c :: s).take k = w ++ c :: s.take j := by
  by_cases hk : k ≤ w.length
  · exact Or.inl ⟨hk, List.take_append_of_le_length hk⟩
  · obtain ⟨j, rfl⟩ : ∃ j, k = w.length + 1 + j := ⟨k - w.length - 1, by omega⟩
    refine Or.inr ⟨j, rfl, ?_⟩
    rw [Nat.add_assoc, List.take_length_add_append, Nat.add_comm 1 j, List.take_succ_cons]

end Inside

end Cs162Hw.Library
