import Cs162Hw.Kv.Md5
import Cs162Hw.Library.Blocks
import Mathlib.Data.UInt

/-!
# MD5, the digest

What `MD5_Init`, `MD5_Update` and `MD5_Final` are for: a message has a digest, and it is the same in whatever pieces the
message comes. The digest is the textbook's: the message is padded, and for every block of 64 bytes there are 64 operations
that turn the four registers around.

* `digestBlock_eq`: **the lines of `body` are these operations**, written out so that no register has to be moved, with
  `F` and `G` by the shorter formulas and `H` in two forms.
* `md5Body_spec`: `body` on any size.
* `md5Update_holds` and `md5Final_eq`: a context holds what it was given, and makes the digest of it.
* **`md5_pieces`**: any pieces, the digest of the whole, and no access outside the buffer or the data.
* `md5Strhash64_eq`: `strhash64` is a part of the digest.
-/

namespace Cs162Hw.Kv

open Library

/-! ## The digest of a message -/

/-- The four functions, as they are defined, one for each round. -/
def roundFn : ℕ → UInt32 → UInt32 → UInt32 → UInt32
  | 0, x, y, z => (x &&& y) ||| (~~~x &&& z)
  | 1, x, y, z => (x &&& z) ||| (y &&& ~~~z)
  | 2, x, y, z => x ^^^ y ^^^ z
  | _, x, y, z => y ^^^ (x ||| ~~~z)

/-- The word that an operation reads. -/
def roundWord (i : ℕ) : ℕ :=
  match i / 16 with
  | 0 => i % 16
  | 1 => (5 * i + 1) % 16
  | 2 => (3 * i + 5) % 16
  | _ => 7 * i % 16

/-- How far an operation rotates. -/
def roundShift (i : ℕ) : UInt32 :=
  ([[7, 12, 17, 22], [5, 9, 14, 20], [4, 11, 16, 23], [6, 10, 15, 21]].getD (i / 16) []).getD (i % 4) 0

/-- The constant of an operation: the integer part of `2 ^ 32 * |sin (i + 1)|`. -/
def roundConstant (i : ℕ) : UInt32 :=
  [0xd76aa478, 0xe8c7b756, 0x242070db, 0xc1bdceee, 0xf57c0faf, 0x4787c62a, 0xa8304613, 0xfd469501,
    0x698098d8, 0x8b44f7af, 0xffff5bb1, 0x895cd7be, 0x6b901122, 0xfd987193, 0xa679438e, 0x49b40821,
    0xf61e2562, 0xc040b340, 0x265e5a51, 0xe9b6c7aa, 0xd62f105d, 0x02441453, 0xd8a1e681, 0xe7d3fbc8,
    0x21e1cde6, 0xc33707d6, 0xf4d50d87, 0x455a14ed, 0xa9e3e905, 0xfcefa3f8, 0x676f02d9, 0x8d2a4c8a,
    0xfffa3942, 0x8771f681, 0x6d9d6122, 0xfde5380c, 0xa4beea44, 0x4bdecfa9, 0xf6bb4b60, 0xbebfbc70,
    0x289b7ec6, 0xeaa127fa, 0xd4ef3085, 0x04881d05, 0xd9d4d039, 0xe6db99e5, 0x1fa27cf8, 0xc4ac5665,
    0xf4292244, 0x432aff97, 0xab9423a7, 0xfc93a039, 0x655b59c3, 0x8f0ccc92, 0xffeff47d, 0x85845dd1,
    0x6fa87e4f, 0xfe2ce6e0, 0xa3014314, 0x4e0811a1, 0xf7537e82, 0xbd3af235, 0x2ad7d2bb, 0xeb86d391].getD i 0

/-- A word rotated to the left. -/
def rotateLeft (x s : UInt32) : UInt32 := (x <<< s) ||| (x >>> (32 - s))

/-- An operation: the new value of the first register is the second, and the others move on. -/
def operation (x : ℕ → UInt32) (v : Md5Regs) (i : ℕ) : Md5Regs where
  a := v.d
  b := v.b + rotateLeft (v.a + roundFn (i / 16) v.b v.c v.d + x (roundWord i) + roundConstant i) (roundShift i)
  c := v.b
  d := v.c

/-- What a block makes of the registers. -/
def digestBlock (v : Md5Regs) (block : List UInt8) : Md5Regs :=
  ((List.range 64).foldl (operation (md5Word block)) v).add v

/-- The message with the byte `0x80`, zeros, and its length in bits, a number of 64 bits. -/
def padded (l : List UInt8) : List UInt8 :=
  l ++ [0x80] ++ List.replicate ((119 - l.length % 64) % 64) 0 ++ toBytes 8 (8 * l.length)

/-- The registers before the first block are these sixteen bytes. -/
def digestStart : Md5Regs :=
  let bytes := [0x01, 0x23, 0x45, 0x67, 0x89, 0xab, 0xcd, 0xef, 0xfe, 0xdc, 0xba, 0x98, 0x76, 0x54, 0x32, 0x10]
  ⟨md5Word bytes 0, md5Word bytes 1, md5Word bytes 2, md5Word bytes 3⟩

/-- The digest. -/
def digest (l : List UInt8) : List UInt8 := ((blocks 64 (padded l)).foldl digestBlock digestStart).bytes

/-- `MD5_Init` begins with them. -/
theorem md5Start_eq : md5Start = digestStart := by decide

/-! ## The lines are the operations -/

/-- The function of an operation, in the form the lines have it. -/
def lineFn (i : ℕ) : Md5Fn :=
  match i / 16 with
  | 0 => .F
  | 1 => .G
  | 2 => if i % 2 = 0 then .H else .H2
  | _ => .I

/-- The line for an operation. -/
def lineOf (i : ℕ) : Md5Line :=
  match i % 4 with
  | 0 => ⟨lineFn i, .a, .b, .c, .d, roundWord i, roundConstant i, roundShift i⟩
  | 1 => ⟨lineFn i, .d, .a, .b, .c, roundWord i, roundConstant i, roundShift i⟩
  | 2 => ⟨lineFn i, .c, .d, .a, .b, roundWord i, roundConstant i, roundShift i⟩
  | _ => ⟨lineFn i, .b, .c, .d, .a, roundWord i, roundConstant i, roundShift i⟩

theorem md5Lines_eq : md5Lines = (List.range 64).map lineOf := by decide +kernel

/-- The formula for `F` that needs one operation less. -/
theorem apply_F (x y z : UInt32) : Md5Fn.F.apply x y z = roundFn 0 x y z := by
  apply UInt32.toBitVec_inj.mp
  ext i hi
  simp only [Md5Fn.apply, roundFn, UInt32.toBitVec_xor, UInt32.toBitVec_and, UInt32.toBitVec_or, UInt32.toBitVec_not,
    BitVec.getElem_xor, BitVec.getElem_and, BitVec.getElem_or, BitVec.getElem_not]
  cases x.toBitVec[i] <;> cases y.toBitVec[i] <;> cases z.toBitVec[i] <;> rfl

theorem apply_G (x y z : UInt32) : Md5Fn.G.apply x y z = roundFn 1 x y z := by
  apply UInt32.toBitVec_inj.mp
  ext i hi
  simp only [Md5Fn.apply, roundFn, UInt32.toBitVec_xor, UInt32.toBitVec_and, UInt32.toBitVec_or, UInt32.toBitVec_not,
    BitVec.getElem_xor, BitVec.getElem_and, BitVec.getElem_or, BitVec.getElem_not]
  cases x.toBitVec[i] <;> cases y.toBitVec[i] <;> cases z.toBitVec[i] <;> rfl

theorem apply_lineFn (i : ℕ) (x y z : UInt32) : (lineFn i).apply x y z = roundFn (i / 16) x y z := by
  unfold lineFn
  rcases h : i / 16 with _ | _ | _ | n
  · exact apply_F x y z
  · exact apply_G x y z
  · change (if i % 2 = 0 then Md5Fn.H else Md5Fn.H2).apply x y z = roundFn 2 x y z
    split
    · rfl
    · exact (UInt32.xor_assoc x y z).symm
  · rfl

/-- `STEP` adds, rotates and adds. -/
theorem md5Step_eq (f : UInt32 → UInt32 → UInt32 → UInt32) (a b c d x t s : UInt32) :
    md5Step f a b c d x t s = b + rotateLeft (a + f b c d + x + t) s := by
  have hmask : ∀ w : UInt32, w &&& 0xffffffff = w := by
    intro w
    apply UInt32.toNat_inj.mp
    rw [UInt32.toNat_and]
    exact (Nat.and_two_pow_sub_one_eq_mod _ 32).trans (Nat.mod_eq_of_lt w.toNat_lt)
  have hsum : a + (f b c d + x + t) = a + f b c d + x + t := by
    rw [← UInt32.add_assoc, ← UInt32.add_assoc]
  simp only [md5Step, hmask, hsum, rotateLeft]
  exact UInt32.add_comm _ _

/-- The registers as they stand before an operation: the lines leave them in their places, the operation moves them. -/
def view (i : ℕ) (r : Md5Regs) : Md5Regs :=
  match i % 4 with
  | 0 => r
  | 1 => ⟨r.d, r.a, r.b, r.c⟩
  | 2 => ⟨r.c, r.d, r.a, r.b⟩
  | _ => ⟨r.b, r.c, r.d, r.a⟩

/-- A line is its operation. -/
theorem view_run (ptr : List UInt8) (r : Md5Regs) (i : ℕ) :
    view (i + 1) ((lineOf i).run ptr r) = operation (md5Word ptr) (view i r) i := by
  have hi : i % 4 = 0 ∨ i % 4 = 1 ∨ i % 4 = 2 ∨ i % 4 = 3 := by omega
  rcases hi with h | h | h | h
  · have hnext : (i + 1) % 4 = 1 := by omega
    simp only [view, lineOf, h, hnext, Md5Line.run, Md5Regs.get, Md5Regs.set, operation, md5Step_eq, apply_lineFn]
  · have hnext : (i + 1) % 4 = 2 := by omega
    simp only [view, lineOf, h, hnext, Md5Line.run, Md5Regs.get, Md5Regs.set, operation, md5Step_eq, apply_lineFn]
  · have hnext : (i + 1) % 4 = 3 := by omega
    simp only [view, lineOf, h, hnext, Md5Line.run, Md5Regs.get, Md5Regs.set, operation, md5Step_eq, apply_lineFn]
  · have hnext : (i + 1) % 4 = 0 := by omega
    simp only [view, lineOf, h, hnext, Md5Line.run, Md5Regs.get, Md5Regs.set, operation, md5Step_eq, apply_lineFn]

/-- The first lines are the first operations. -/
theorem view_lines (ptr : List UInt8) (r : Md5Regs) (k : ℕ) :
    view k (((List.range k).map lineOf).foldl (Md5Line.run ptr) r) = (List.range k).foldl (operation (md5Word ptr)) r := by
  induction k with
  | zero => rfl
  | succ k ih =>
    rw [List.range_succ, List.map_append, List.foldl_append, List.foldl_append, ← ih]
    exact view_run ptr _ k

/-- **All the lines are all the operations**: after 64 of them the registers are in their places again. -/
theorem md5Lines_foldl (ptr : List UInt8) (r : Md5Regs) :
    md5Lines.foldl (Md5Line.run ptr) r = (List.range 64).foldl (operation (md5Word ptr)) r := by
  rw [← view_lines ptr r 64, md5Lines_eq]
  rfl

/-! ## `body` -/

/-- What `body` makes of the registers with a block. -/
def md5Block (r : Md5Regs) (block : List UInt8) : Md5Regs := (md5Lines.foldl (Md5Line.run block) r).add r

/-- **A round of `body` is the digest's step for a block.** -/
theorem digestBlock_eq : digestBlock = md5Block := by
  funext r block
  rw [digestBlock, md5Block, md5Lines_foldl]

theorem md5Word_take (ptr : List UInt8) {n : ℕ} (hn : n < 16) : md5Word (ptr.take 64) n = md5Word ptr n := by
  have hmin : min 4 (64 - n * 4) = 4 := by omega
  rw [md5Word, List.drop_take, List.take_take, hmin, md5Word]

/-- No line reads beyond the block. -/
theorem n_lt_of_mem : ∀ l ∈ md5Lines, l.n < 16 := by decide

/-- A round looks at the first block only. -/
theorem md5Block_take (r : Md5Regs) (ptr : List UInt8) : md5Block r (ptr.take 64) = md5Block r ptr := by
  have hrun : ∀ r : Md5Regs, ∀ l ∈ md5Lines, Md5Line.run (ptr.take 64) r l = Md5Line.run ptr r l := by
    intro r l hl
    rw [Md5Line.run, md5Word_take ptr (n_lt_of_mem l hl), Md5Line.run]
  rw [md5Block, List.foldl_ext _ _ r hrun, md5Block]

/-- The loop makes its step for every block, when it is given whole blocks, one at least. -/
theorem md5BodyLoop_eq (k : ℕ) (ptr : List UInt8) (size : UInt64) (r : Md5Regs) (j : ℕ) (hsize : size.toNat = (j + 1) * 64)
    (hk : k = ptr.length / 64) (hle : size.toNat ≤ ptr.length) :
    md5BodyLoop k ptr size r = some ((firstBlocks 64 (j + 1) ptr).foldl md5Block r, ptr.drop size.toNat) := by
  induction k generalizing ptr size r j with
  | zero => omega
  | succ k ih =>
    have hsub : (size - 64).toNat = j * 64 := by
      have h64 : (64 : UInt64) ≤ size := by
        rw [UInt64.le_iff_toNat_le, hsize]
        change 64 ≤ _
        omega
      rw [UInt64.toNat_sub_of_le _ _ h64, hsize]
      change (j + 1) * 64 - 64 = _
      omega
    have hround : (md5Lines.foldl (Md5Line.run ptr) r).add r = md5Block r (ptr.take 64) := (md5Block_take r ptr).symm
    rw [md5BodyLoop, hround, firstBlocks, List.foldl_cons]
    cases j with
    | zero =>
      have hzero : size - 64 = 0 := UInt64.toNat_inj.mp (hsub.trans (Nat.zero_mul 64))
      have hdrop : size.toNat = 64 := hsize
      simp only [hzero, if_true, hdrop, firstBlocks, List.foldl_nil]
    | succ j =>
      have hne : size - 64 ≠ 0 := by
        intro hzero
        rw [hzero] at hsub
        have : (0 : UInt64).toNat = 0 := rfl
        omega
      have hlen : (ptr.drop 64).length = ptr.length - 64 := List.length_drop
      simp only [hne, if_false]
      rw [ih (ptr.drop 64) (size - 64) _ j hsub (by omega) (by omega), List.drop_drop]
      congr 3
      omega

/-- `body`, given whole blocks. -/
theorem md5Body_eq (ctx : Md5Ctx) {data : List UInt8} {size : UInt64} (hpos : 0 < size.toNat) (hdvd : 64 ∣ size.toNat)
    (hle : size.toNat ≤ data.length) :
    md5Body ctx data size =
      some ({ ctx with regs := (blocks 64 (data.take size.toNat)).foldl md5Block ctx.regs }, data.drop size.toNat) := by
  obtain ⟨j, hj⟩ := hdvd
  cases j with
  | zero => omega
  | succ j =>
    have hloop := md5BodyLoop_eq (data.length / 64) data size ctx.regs j (hj.trans (Nat.mul_comm _ _)) rfl hle
    have hfirst : blocks 64 (data.take size.toNat) = firstBlocks 64 (j + 1) data := by
      have hdiv : (data.take size.toNat).length / 64 = j + 1 := by
        rw [List.length_take_of_le hle, hj]
        omega
      rw [blocks, hdiv, firstBlocks_take _ _ (by omega)]
    rw [md5Body, hloop, hfirst]
    rfl

/-- Where the loop does not find its end in the data: the size is no multiple of 64, or there are not as many blocks. A
size of 0 counts as all the sizes there are. -/
theorem md5BodyLoop_eq_none (k : ℕ) (ptr : List UInt8) (size : UInt64) (r : Md5Regs)
    (h : size.toNat % 64 ≠ 0 ∨ k * 64 < size.toNat ∨ size.toNat = 0 ∧ k * 64 < 2 ^ 64) :
    md5BodyLoop k ptr size r = none := by
  induction k generalizing ptr size r with
  | zero => rfl
  | succ k ih =>
    have hsub : (size - 64).toNat = (2 ^ 64 - 64 + size.toNat) % 2 ^ 64 := UInt64.toNat_sub size 64
    have hlt := size.toNat_lt
    have hne : size - 64 ≠ 0 := by
      intro hzero
      rw [hzero] at hsub
      change 0 = _ at hsub
      omega
    simp only [md5BodyLoop, hne, if_false]
    exact ih _ _ _ (by omega)

/-- **What `body` does with any size**: with whole blocks, one at least, that are there, the digest's step for each of
them, and the pointer behind them; with any other size it reads beyond the data. -/
theorem md5Body_spec (ctx : Md5Ctx) (data : List UInt8) (size : UInt64) (hdata : data.length < 2 ^ 64) :
    md5Body ctx data size =
      if 0 < size.toNat ∧ 64 ∣ size.toNat ∧ size.toNat ≤ data.length then
        some ({ ctx with regs := (blocks 64 (data.take size.toNat)).foldl digestBlock ctx.regs }, data.drop size.toNat)
      else none := by
  split
  · next h =>
    rw [digestBlock_eq]
    exact md5Body_eq ctx h.1 h.2.1 h.2.2
  · next h =>
    have hnone := md5BodyLoop_eq_none (data.length / 64) data size ctx.regs (by omega)
    rw [md5Body, hnone]
    rfl

/-- Two blocks of two and a half; and half a block, behind which `body` reads on. -/
theorem md5Body_spec_twoBlocks :
    (List.replicate 160 1 : List UInt8).length < 2 ^ 64 ∧
      md5Body md5Zero (.replicate 160 1) 128 =
        some ({ md5Zero with regs := [.replicate 64 1, .replicate 64 1].foldl digestBlock md5Zero.regs }, .replicate 32 1) ∧
      md5Body md5Zero (.replicate 160 1) 32 = none := by
  have hdata : (List.replicate 160 1 : List UInt8).length < 2 ^ 64 := by decide +kernel
  have hblocks : blocks 64 ((List.replicate 160 1 : List UInt8).take (128 : UInt64).toNat) =
      [.replicate 64 1, .replicate 64 1] := by
    decide +kernel
  have hrest : (List.replicate 160 1 : List UInt8).drop (128 : UInt64).toNat = .replicate 32 1 := by decide +kernel
  refine ⟨hdata, ?_, ?_⟩
  · rw [md5Body_spec md5Zero _ 128 hdata, if_pos (by decide +kernel), hblocks, hrest]
  · rw [md5Body_spec md5Zero _ 32 hdata, if_neg (by decide +kernel)]

/-! ## The buffer -/

theorem Md5Buffer.put_of_le (b : Md5Buffer) {pos : ℕ} {l : List UInt8} (h : pos + l.length ≤ 64) :
    ∃ b', b.put pos l = some b' ∧ b'.bytes.take (pos + l.length) = b.bytes.take pos ++ l := by
  have hlen : (b.bytes.take pos ++ l).length = pos + l.length := by
    have hb := b.length_bytes
    rw [List.length_append, List.length_take]
    omega
  rw [Md5Buffer.put, dif_pos h]
  exact ⟨_, rfl, List.take_left' hlen⟩

/-- The context has made a step for every block of the message and keeps the rest. -/
def Md5Ctx.Has (ctx : Md5Ctx) (l : List UInt8) : Prop :=
  Absorbed 64 md5Block md5Start l ctx.regs (ctx.buffer.bytes.take (l.length % 64))

/-- What does not fill the buffer is kept. -/
theorem Md5Ctx.Has.put {ctx : Md5Ctx} {l m : List UInt8} (h : ctx.Has l) (hlt : l.length % 64 + m.length < 64) :
    ∃ ctx', ctx.put (l.length % 64) m = some ctx' ∧ ctx'.Has (l ++ m) ∧ ctx'.lo = ctx.lo ∧ ctx'.hi = ctx.hi := by
  obtain ⟨b, hb, htake⟩ := ctx.buffer.put_of_le hlt.le
  refine ⟨{ ctx with buffer := b }, congrArg _ hb, ?_, rfl, rfl⟩
  have hmod : (l ++ m).length % 64 = l.length % 64 + m.length := by
    rw [List.length_append]
    omega
  have hheld : (ctx.buffer.bytes.take (l.length % 64)).length + m.length < 64 := by
    rw [Absorbed.length_held h]
    exact hlt
  unfold Md5Ctx.Has
  rw [hmod, htake]
  exact Absorbed.hold h hheld

/-- What fills the buffer makes a step, and the buffer is empty. -/
theorem Md5Ctx.Has.fill {ctx : Md5Ctx} {l m : List UInt8} (h : ctx.Has l) (heq : l.length % 64 + m.length = 64) :
    ∃ ctx' ctx'', ctx.put (l.length % 64) m = some ctx' ∧ md5Body ctx' ctx'.buffer.bytes 64 = some (ctx'', []) ∧
      ctx''.Has (l ++ m) ∧ ctx''.lo = ctx.lo ∧ ctx''.hi = ctx.hi ∧ (l ++ m).length % 64 = 0 := by
  obtain ⟨b, hb, htake⟩ := ctx.buffer.put_of_le heq.le
  have hlen : b.bytes.length = 64 := b.length_bytes
  have hbytes : b.bytes = ctx.buffer.bytes.take (l.length % 64) ++ m := by
    rw [← htake, heq, List.take_of_length_le hlen.le]
  have hblocks : blocks 64 b.bytes = [b.bytes] := (blocks_of_length_eq (by decide) hlen).1
  have htake64 : b.bytes.take 64 = b.bytes := List.take_of_length_le hlen.le
  have hdrop64 : b.bytes.drop 64 = [] := List.drop_of_length_le hlen.le
  have hsize : (64 : UInt64).toNat = 64 := rfl
  have hbody := md5Body_eq { ctx with buffer := b } (show 0 < (64 : UInt64).toNat by decide) (by decide)
    (show (64 : UInt64).toNat ≤ b.bytes.length by rw [hsize, hlen])
  rw [hsize, htake64, hdrop64, hblocks] at hbody
  have hmod : (l ++ m).length % 64 = 0 := by
    rw [List.length_append]
    omega
  have hheld : (ctx.buffer.bytes.take (l.length % 64)).length + m.length = 64 := by
    rw [Absorbed.length_held h]
    exact heq
  refine ⟨{ ctx with buffer := b }, { ctx with buffer := b, regs := md5Block ctx.regs b.bytes }, congrArg _ hb, hbody, ?_,
    rfl, rfl, hmod⟩
  unfold Md5Ctx.Has
  rw [hmod, List.take_zero, hbytes]
  exact Absorbed.fill h (by decide) hheld

/-- Whole blocks make their steps where the buffer is empty. -/
theorem Md5Ctx.Has.body {ctx : Md5Ctx} {l data : List UInt8} {size : UInt64} (h : ctx.Has l) (hmod : l.length % 64 = 0)
    (hpos : 0 < size.toNat) (hdvd : 64 ∣ size.toNat) (hle : size.toNat ≤ data.length) :
    ∃ ctx', md5Body ctx data size = some (ctx', data.drop size.toNat) ∧ ctx'.Has (l ++ data.take size.toNat) ∧
      ctx'.lo = ctx.lo ∧ ctx'.hi = ctx.hi ∧ (l ++ data.take size.toNat).length % 64 = 0 := by
  have hlen : (data.take size.toNat).length = size.toNat := List.length_take_of_le hle
  have hmod' : (l ++ data.take size.toNat).length % 64 = 0 := by
    rw [List.length_append, hlen]
    omega
  refine ⟨_, md5Body_eq ctx hpos hdvd hle, ?_, rfl, rfl, hmod'⟩
  unfold Md5Ctx.Has at h ⊢
  rw [hmod, List.take_zero] at h
  rw [hmod', List.take_zero]
  exact h.whole (by decide) (by rwa [hlen])

/-! ## `MD5_Update` -/

theorem toNat_and_63 (w : UInt32) : (w.toUInt64 &&& 0x3f).toNat = w.toNat % 64 := by
  rw [UInt64.toNat_and, UInt32.toNat_toUInt64]
  exact Nat.and_two_pow_sub_one_eq_mod _ 6

/-- `size & ~(unsigned long)0x3f`. -/
theorem toNat_and_not_63 (size : UInt64) : (size &&& ~~~(0x3f : UInt64)).toNat = size.toNat / 64 * 64 := by
  have hshift : size &&& ~~~(0x3f : UInt64) = (size >>> 6) <<< 6 := by
    apply UInt64.toBitVec_inj.mp
    change size.toBitVec &&& ~~~63#64 = (size.toBitVec >>> 6) <<< 6
    ext i hi
    have hmask : (63#64)[i] = decide (i < 6) := by
      rw [BitVec.getElem_eq_testBit_toNat]
      exact Nat.testBit_two_pow_sub_one 6 i
    rw [BitVec.getElem_and, BitVec.getElem_not, hmask, BitVec.getElem_shiftLeft, BitVec.getElem_ushiftRight]
    by_cases h : i < 6
    · simp only [h, decide_true, Bool.not_true, Bool.and_false, Bool.false_and]
    · have hsum : 6 + (i - 6) = i := by omega
      simp only [h, decide_false, Bool.not_false, Bool.and_true, Bool.true_and, hsum, BitVec.getLsbD_eq_getElem hi]
  have hlt := size.toNat_lt
  have hmod : size.toNat / 64 * 64 < 2 ^ 64 := by omega
  rw [hshift, UInt64.toNat_shiftLeft, UInt64.toNat_shiftRight]
  change (size.toNat >>> 6) <<< 6 % 2 ^ 64 = _
  rw [Nat.shiftRight_eq_div_pow, Nat.shiftLeft_eq]
  exact Nat.mod_eq_of_lt hmod

/-- A copy that leaves room in the buffer. -/
theorem Md5Ctx.Has.memcpy {ctx : Md5Ctx} {l data : List UInt8} {size : UInt64} (h : ctx.Has l)
    (hlt : l.length % 64 + size.toNat < 64) (hle : size.toNat ≤ data.length) :
    ∃ ctx', ctx.memcpy (l.length % 64) data size = some ctx' ∧ ctx'.Has (l ++ data.take size.toNat) ∧
      ctx'.lo = ctx.lo ∧ ctx'.hi = ctx.hi := by
  have hlen : (data.take size.toNat).length = size.toNat := List.length_take_of_le hle
  rw [Md5Ctx.memcpy, if_pos hle]
  exact h.put (by omega)

/-- The rest of `MD5_Update`, when the buffer is empty. -/
theorem md5UpdateBlocks_has {ctx : Md5Ctx} {l data : List UInt8} {size : UInt64} (h : ctx.Has l) (hmod : l.length % 64 = 0)
    (hle : size.toNat ≤ data.length) :
    ∃ ctx', md5UpdateBlocks ctx data size = some ctx' ∧ ctx'.Has (l ++ data.take size.toNat) ∧
      ctx'.lo = ctx.lo ∧ ctx'.hi = ctx.hi := by
  have hlow : (size &&& 0x3f).toNat = size.toNat % 64 := by
    rw [UInt64.toNat_and]
    exact Nat.and_two_pow_sub_one_eq_mod _ 6
  have hwhole : (size &&& ~~~(0x3f : UInt64)).toNat = size.toNat / 64 * 64 := toNat_and_not_63 size
  by_cases h64 : 64 ≤ size
  · have hge : 64 ≤ size.toNat := UInt64.le_iff_toNat_le.mp h64
    obtain ⟨ctx₁, hbody, hhas, hlo, hhi, hmod₁⟩ := h.body hmod
      (show 0 < (size &&& ~~~(0x3f : UInt64)).toNat by omega) (by omega) (show _ ≤ data.length by omega)
    rw [hwhole] at hbody hhas hmod₁
    obtain ⟨ctx₂, hcopy, hend, hlo₂, hhi₂⟩ := hhas.memcpy (show _ + (size &&& 0x3f).toNat < 64 by omega)
      (show _ ≤ (data.drop (size.toNat / 64 * 64)).length by rw [List.length_drop]; omega)
    rw [hmod₁] at hcopy
    have hsum : size.toNat / 64 * 64 + size.toNat % 64 = size.toNat := by omega
    rw [List.append_assoc, hlow, ← List.take_add, hsum] at hend
    refine ⟨ctx₂, ?_, hend, hlo₂.trans hlo, hhi₂.trans hhi⟩
    rw [md5UpdateBlocks, if_pos h64, hbody]
    exact hcopy
  · have hlt : size.toNat < 64 := by
      rw [UInt64.le_iff_toNat_le] at h64
      exact Nat.lt_of_not_le h64
    obtain ⟨ctx₁, hcopy, hend⟩ := h.memcpy (show _ + size.toNat < 64 by omega) hle
    rw [hmod] at hcopy
    refine ⟨ctx₁, ?_, hend⟩
    rw [md5UpdateBlocks, if_neg h64]
    exact hcopy

/-- The two words count the bytes: 29 bits in one, 32 more in the other. -/
structure Md5Ctx.Counts (ctx : Md5Ctx) (n : ℕ) : Prop where
  /-- The lower bits. -/
  lo : ctx.lo.toNat = n % 2 ^ 29
  /-- The others. -/
  hi : ctx.hi.toNat = n / 2 ^ 29 % 2 ^ 32

/-- The carry from `lo` to `hi` is seen by `lo` getting smaller. -/
theorem Md5Ctx.Counts.count {ctx : Md5Ctx} {n : ℕ} (h : ctx.Counts n) (size : UInt64) :
    (ctx.count size).Counts (n + size.toNat) := by
  have hlo := h.lo
  have hhi := h.hi
  have hsize := size.toNat_lt
  have hmask : ((ctx.lo.toUInt64 + size) &&& 0x1fffffff).toNat = (ctx.lo.toNat + size.toNat) % 2 ^ 29 := by
    rw [UInt64.toNat_and, UInt64.toNat_add, UInt32.toNat_toUInt64]
    refine (Nat.and_two_pow_sub_one_eq_mod _ 29).trans ?_
    omega
  have hnew : ((ctx.lo.toUInt64 + size) &&& 0x1fffffff).toUInt32.toNat = (n + size.toNat) % 2 ^ 29 := by
    rw [UInt64.toNat_toUInt32, hmask]
    omega
  have hshift : (size >>> 29).toNat = size.toNat / 2 ^ 29 := by
    rw [UInt64.toNat_shiftRight]
    exact Nat.shiftRight_eq_div_pow _ 29
  refine ⟨hnew, ?_⟩
  have hcarry : (if ((ctx.lo.toUInt64 + size) &&& 0x1fffffff).toUInt32 < ctx.lo then ctx.hi + 1 else ctx.hi).toNat =
      (n / 2 ^ 29 + (n % 2 ^ 29 + size.toNat % 2 ^ 29) / 2 ^ 29) % 2 ^ 32 := by
    split
    · next hlt =>
      rw [UInt32.lt_iff_toNat_lt, hnew, hlo] at hlt
      rw [UInt32.toNat_add, hhi]
      change (n / 2 ^ 29 % 2 ^ 32 + 1) % 2 ^ 32 = _
      omega
    · next hnot =>
      rw [UInt32.lt_iff_toNat_lt, hnew, hlo] at hnot
      rw [hhi]
      omega
  change ((if ((ctx.lo.toUInt64 + size) &&& 0x1fffffff).toUInt32 < ctx.lo then ctx.hi + 1 else ctx.hi).toUInt64
    + size >>> 29).toUInt32.toNat = _
  rw [UInt64.toNat_toUInt32, UInt64.toNat_add, UInt32.toNat_toUInt64, hcarry, hshift]
  omega

/-- The context has been given the message. -/
structure Md5Ctx.Holds (ctx : Md5Ctx) (l : List UInt8) : Prop where
  /-- How long it is. -/
  counts : ctx.Counts l.length
  /-- What is in it. -/
  has : ctx.Has l

theorem md5Init_holds (buffer : Md5Buffer) : (md5Init buffer).Holds [] :=
  ⟨⟨rfl, rfl⟩, Absorbed.nil md5Block md5Start (by decide)⟩

/-- The position in the buffer is what the lower bits of the count say. -/
theorem Md5Ctx.Counts.used {ctx : Md5Ctx} {n : ℕ} (h : ctx.Counts n) : (ctx.lo.toUInt64 &&& 0x3f).toNat = n % 64 := by
  have hlo := h.lo
  rw [toNat_and_63]
  omega

/-- **`MD5_Update` adds the data to the message.** -/
theorem md5Update_holds {ctx : Md5Ctx} {l data : List UInt8} {size : UInt64} (h : ctx.Holds l)
    (hle : size.toNat ≤ data.length) :
    ∃ ctx', md5Update ctx data size = some ctx' ∧ ctx'.Holds (l ++ data.take size.toNat) := by
  have hused := h.counts.used
  have hlen : (data.take size.toNat).length = size.toNat := List.length_take_of_le hle
  have hcount : (ctx.count size).Counts (l ++ data.take size.toNat).length := by
    rw [List.length_append, hlen]
    exact h.counts.count size
  have hhas : (ctx.count size).Has l := h.has
  have hzero : (0 : UInt64).toNat = 0 := rfl
  have hholds : ∀ ctx' : Md5Ctx, ctx'.Has (l ++ data.take size.toNat) → ctx'.lo = (ctx.count size).lo →
      ctx'.hi = (ctx.count size).hi → ctx'.Holds (l ++ data.take size.toNat) := by
    intro ctx' hend hlo hhi
    refine ⟨⟨?_, ?_⟩, hend⟩
    · rw [hlo, hcount.lo]
    · rw [hhi, hcount.hi]
  by_cases hne : ctx.lo.toUInt64 &&& 0x3f = 0
  · rw [hne, hzero] at hused
    obtain ⟨ctx', hrun, hend, hlo, hhi⟩ := md5UpdateBlocks_has hhas hused.symm hle
    refine ⟨ctx', ?_, hholds ctx' hend hlo hhi⟩
    simp only [md5Update, hne, ne_eq, not_true, if_false]
    exact hrun
  · have hpos : 0 < l.length % 64 := by
      rw [← hused]
      exact Nat.pos_of_ne_zero fun h0 => hne (UInt64.toNat_inj.mp h0)
    have h64 : ctx.lo.toUInt64 &&& 0x3f ≤ 64 := by
      rw [UInt64.le_iff_toNat_le, hused]
      exact (Nat.mod_lt _ (by decide)).le
    have havail : (64 - (ctx.lo.toUInt64 &&& 0x3f)).toNat = 64 - l.length % 64 := by
      rw [UInt64.toNat_sub_of_le _ _ h64, hused]
      rfl
    by_cases hshort : size < 64 - (ctx.lo.toUInt64 &&& 0x3f)
    · have hlt : size.toNat < 64 - l.length % 64 := havail ▸ UInt64.lt_iff_toNat_lt.mp hshort
      obtain ⟨ctx', hrun, hend, hlo, hhi⟩ := hhas.memcpy (show _ + size.toNat < 64 by omega) hle
      refine ⟨ctx', ?_, hholds ctx' hend hlo hhi⟩
      simp only [md5Update, hne, ne_eq, not_false_eq_true, if_true, hshort, hused]
      exact hrun
    · have hge : 64 - l.length % 64 ≤ size.toNat := by
        rw [UInt64.lt_iff_toNat_lt, havail] at hshort
        exact Nat.le_of_not_lt hshort
      have htake : (data.take (64 - l.length % 64)).length = 64 - l.length % 64 := List.length_take_of_le (by omega)
      obtain ⟨ctx₁, ctx₂, hput, hbody, hhas₂, hlo₂, hhi₂, hmod⟩ :=
        hhas.fill (m := data.take (64 - l.length % 64)) (by omega)
      have hcopy : (ctx.count size).memcpy (l.length % 64) data (64 - (ctx.lo.toUInt64 &&& 0x3f)) = some ctx₁ := by
        rw [Md5Ctx.memcpy, havail, if_pos (by omega)]
        exact hput
      have hsub : (size - (64 - (ctx.lo.toUInt64 &&& 0x3f))).toNat = size.toNat - (64 - l.length % 64) := by
        rw [UInt64.toNat_sub_of_le _ _ (UInt64.not_lt.mp hshort), havail]
      obtain ⟨ctx', hrun, hend, hlo, hhi⟩ := md5UpdateBlocks_has hhas₂ hmod
        (show (size - (64 - (ctx.lo.toUInt64 &&& 0x3f))).toNat ≤ (data.drop (64 - l.length % 64)).length by
          rw [hsub, List.length_drop]; omega)
      have hsum : 64 - l.length % 64 + (size.toNat - (64 - l.length % 64)) = size.toNat := by omega
      rw [hsub, List.append_assoc, ← List.take_add, hsum] at hend
      refine ⟨ctx', ?_, hholds ctx' hend (hlo.trans hlo₂) (hhi.trans hhi₂)⟩
      simp only [md5Update, hne, ne_eq, not_false_eq_true, if_true, hshort, if_false, hused, hcopy, Option.bind_eq_bind,
        Option.bind_some, hbody, havail]
      exact hrun

/-! ## `MD5_Final` -/

theorem md5Bytes_eq (w : UInt32) : md5Bytes w = toBytes 4 w.toNat := by
  have hbyte : ∀ (s : UInt32) (k : ℕ), s.toNat % 32 = k →
      (w >>> s).toUInt8 = UInt8.ofNat (w.toNat / 2 ^ k) := by
    intro s k hk
    apply UInt8.toNat_inj.mp
    rw [UInt32.toNat_toUInt8, UInt32.toNat_shiftRight, hk, Nat.shiftRight_eq_div_pow, UInt8.toNat_ofNat']
  have hfirst : w.toUInt8 = UInt8.ofNat w.toNat := by
    apply UInt8.toNat_inj.mp
    rw [UInt32.toNat_toUInt8, UInt8.toNat_ofNat']
  rw [md5Bytes, hfirst, hbyte 8 8 rfl, hbyte 16 16 rfl, hbyte 24 24 rfl]
  simp only [toBytes, Nat.div_div_eq_div_mul]
  rfl

/-- The two words, the lower one shifted, are the length in bits. -/
theorem md5Bytes_length {ctx : Md5Ctx} {n : ℕ} (h : ctx.Counts n) :
    md5Bytes (ctx.lo <<< 3) ++ md5Bytes ctx.hi = toBytes 8 (8 * n) := by
  have hlo : (ctx.lo <<< 3).toNat = 8 * n % 256 ^ 4 := by
    rw [UInt32.toNat_shiftLeft, h.lo, Nat.shiftLeft_eq]
    change n % 2 ^ 29 * 2 ^ 3 % 2 ^ 32 = _
    omega
  have hhi : ctx.hi.toNat = 8 * n / 256 ^ 4 % 256 ^ 4 := by
    rw [h.hi]
    omega
  rw [md5Bytes_eq, md5Bytes_eq, hlo, hhi, toBytes_mod, toBytes_mod, ← toBytes_add]

/-- Nothing is written. -/
theorem Md5Ctx.put_nil (ctx : Md5Ctx) {pos : ℕ} (h : pos ≤ 64) : ctx.put pos [] = some ctx := by
  obtain ⟨_, _, _, b⟩ := ctx
  have hpos : pos + ([] : List UInt8).length ≤ 64 := h
  have hbytes : b.bytes.take pos ++ [] ++ b.bytes.drop (pos + ([] : List UInt8).length) = b.bytes := by
    rw [List.append_nil]
    exact List.take_append_drop pos b.bytes
  simp only [Md5Ctx.put, Md5Buffer.put, dif_pos hpos, hbytes, Option.map_some]

/-- The padding before the length, in one block or in two. -/
theorem md5FinalZeros_has {ctx : Md5Ctx} {l : List UInt8} (h : ctx.Holds l) :
    ∃ ctx₁ ctx₂, ctx.put (l.length % 64) [0x80] = some ctx₁ ∧
      md5FinalZeros ctx₁ ((ctx.lo.toUInt64 &&& 0x3f) + 1) = some ctx₂ ∧
      ctx₂.Has (l ++ [0x80] ++ List.replicate ((119 - l.length % 64) % 64) 0) ∧ ctx₂.lo = ctx.lo ∧ ctx₂.hi = ctx.hi := by
  have hused := h.counts.used
  have hone : ([0x80] : List UInt8).length = 1 := rfl
  have hlt : l.length % 64 < 64 := Nat.mod_lt _ (by decide)
  have hnext : ((ctx.lo.toUInt64 &&& 0x3f) + 1).toNat = l.length % 64 + 1 := by
    rw [UInt64.toNat_add, hused]
    change (l.length % 64 + 1) % 2 ^ 64 = _
    omega
  have havail : (64 - ((ctx.lo.toUInt64 &&& 0x3f) + 1)).toNat = 63 - l.length % 64 := by
    rw [UInt64.toNat_sub_of_le, hnext]
    · change 64 - _ = _
      omega
    · rw [UInt64.le_iff_toNat_le, hnext]
      exact hlt
  have hsmall : (64 - ((ctx.lo.toUInt64 &&& 0x3f) + 1) < 8) ↔ 63 - l.length % 64 < 8 := by
    rw [UInt64.lt_iff_toNat_lt, havail]
    rfl
  have hlen : (l ++ [0x80]).length = l.length + 1 := List.length_append
  have hsecond : ∀ ctx : Md5Ctx, ∀ m : List UInt8, ctx.Has m → m.length % 64 = 0 →
      ∃ ctx', ctx.put 0 (List.replicate (64 - 8) 0) = some ctx' ∧ ctx'.Has (m ++ List.replicate 56 0) ∧
        ctx'.lo = ctx.lo ∧ ctx'.hi = ctx.hi := by
    intro ctx m hm hmod
    have hput := hm.put (m := List.replicate 56 0) (by rw [hmod, List.length_replicate]; decide)
    rw [hmod] at hput
    exact hput
  by_cases hlast : l.length % 64 = 63
  · -- the byte `0x80` fills the block
    obtain ⟨ctx₁, ctx₂, hput, hbody, hhas, hlo, hhi, hmod⟩ := h.has.fill (m := [0x80]) (by omega)
    obtain ⟨ctx₃, hput₃, hhas₃, hlo₃, hhi₃⟩ := hsecond ctx₂ _ hhas hmod
    have hzeros : (119 - l.length % 64) % 64 = 56 := by omega
    refine ⟨ctx₁, ctx₃, hput, ?_, by rwa [hzeros], hlo₃.trans hlo, hhi₃.trans hhi⟩
    have hnone : 63 - l.length % 64 = 0 := by omega
    have hcond := hsmall.mpr (by omega)
    simp only [md5FinalZeros, hcond, if_true, hnext, havail, hnone, List.replicate_zero, ctx₁.put_nil (show _ ≤ 64 from hlt),
      Option.bind_eq_bind, Option.bind_some, hbody, hput₃]
  · obtain ⟨ctx₁, hput, hhas, hlo, hhi⟩ := h.has.put (m := [0x80]) (by omega)
    have hmod₁ : (l ++ [0x80]).length % 64 = l.length % 64 + 1 := by omega
    by_cases hfit : l.length % 64 < 56
    · -- there is room for the length
      obtain ⟨ctx₂, hput₂, hhas₂, hlo₂, hhi₂⟩ := hhas.put (m := List.replicate (55 - l.length % 64) 0)
        (by rw [List.length_replicate]; omega)
      have hzeros : (119 - l.length % 64) % 64 = 55 - l.length % 64 := by omega
      refine ⟨ctx₁, ctx₂, hput, ?_, by rwa [hzeros], hlo₂.trans hlo, hhi₂.trans hhi⟩
      have hcond := mt hsmall.mp (by omega)
      have hsub : (64 - ((ctx.lo.toUInt64 &&& 0x3f) + 1) - 8).toNat = 55 - l.length % 64 := by
        rw [UInt64.toNat_sub_of_le _ _ (UInt64.not_lt.mp hcond), havail]
        change _ - 8 = _
        omega
      simp only [md5FinalZeros, hcond, if_false, hnext, hsub]
      rw [← hmod₁]
      exact hput₂
    · obtain ⟨ctx₂, ctx₃, hput₂, hbody, hhas₃, hlo₃, hhi₃, hmod⟩ := hhas.fill (m := List.replicate (63 - l.length % 64) 0)
        (by rw [List.length_replicate]; omega)
      obtain ⟨ctx₄, hput₄, hhas₄, hlo₄, hhi₄⟩ := hsecond ctx₃ _ hhas₃ hmod
      have hzeros : (119 - l.length % 64) % 64 = 63 - l.length % 64 + 56 := by omega
      refine ⟨ctx₁, ctx₄, hput, ?_, ?_, (hlo₄.trans hlo₃).trans hlo, (hhi₄.trans hhi₃).trans hhi⟩
      · have hcond := hsmall.mpr (by omega)
        rw [hmod₁] at hput₂
        simp only [md5FinalZeros, hcond, if_true, hnext, havail, hput₂, Option.bind_eq_bind, Option.bind_some, hbody, hput₄]
      · rwa [hzeros, List.replicate_add, ← List.append_assoc]

/-- **`MD5_Final` makes the digest** and clears the context. -/
theorem md5Final_eq {ctx : Md5Ctx} {l : List UInt8} (h : ctx.Holds l) : md5Final ctx = some (digest l, md5Zero) := by
  obtain ⟨ctx₁, ctx₂, hput, hzeros, hhas, hlo, hhi⟩ := md5FinalZeros_has h
  have hmod : (l ++ [0x80] ++ List.replicate ((119 - l.length % 64) % 64) 0).length % 64 = 56 := by
    simp only [List.length_append, List.length_replicate, List.length_singleton]
    omega
  have hlength : md5Bytes (ctx₂.lo <<< 3) ++ md5Bytes ctx₂.hi = toBytes 8 (8 * l.length) := by
    rw [hlo, hhi]
    exact md5Bytes_length h.counts
  have hhas' : Md5Ctx.Has { ctx₂ with lo := ctx₂.lo <<< 3 } (l ++ [0x80] ++ List.replicate ((119 - l.length % 64) % 64) 0) :=
    hhas
  obtain ⟨ctx₃, ctx₄, hput₃, hbody, hend, -, -, -⟩ := hhas'.fill (m := toBytes 8 (8 * l.length))
    (by rw [hmod, length_toBytes])
  rw [hmod] at hput₃
  have hregs : ctx₄.regs = (blocks 64 (padded l)).foldl digestBlock digestStart := by
    rw [digestBlock_eq, ← md5Start_eq]
    exact Absorbed.state hend
  simp only [md5Final, h.counts.used, hput, Option.bind_eq_bind, Option.bind_some, hzeros, hlength, hput₃, hbody, hregs]
  rfl

/-! ## In pieces -/

/-- A call of `MD5_Update`: the data, and how much of it. -/
structure Md5Piece where
  /-- The bytes at the pointer. -/
  data : List UInt8
  /-- How many of them. -/
  size : UInt64
  /-- There are as many. -/
  size_le : size.toNat ≤ data.length

/-- The part of the message. -/
def Md5Piece.bytes (p : Md5Piece) : List UInt8 := p.data.take p.size.toNat

/-- `MD5_Init`, a call of `MD5_Update` for each piece, and `MD5_Final`. -/
def md5Pieces (buffer : Md5Buffer) (pieces : List Md5Piece) : Option (List UInt8 × Md5Ctx) := do
  let ctx ← pieces.foldlM (fun ctx p => md5Update ctx p.data p.size) (md5Init buffer)
  md5Final ctx

theorem foldlM_md5Update {ctx : Md5Ctx} {l : List UInt8} (h : ctx.Holds l) (pieces : List Md5Piece) :
    ∃ ctx', pieces.foldlM (fun ctx p => md5Update ctx p.data p.size) ctx = some ctx' ∧
      ctx'.Holds (l ++ pieces.flatMap Md5Piece.bytes) := by
  induction pieces generalizing ctx l with
  | nil => exact ⟨ctx, rfl, by rwa [List.flatMap_nil, List.append_nil]⟩
  | cons p pieces ih =>
    obtain ⟨ctx₁, hstep, h₁⟩ := md5Update_holds h p.size_le
    obtain ⟨ctx', hrun, h'⟩ := ih h₁
    refine ⟨ctx', ?_, ?_⟩
    · rw [List.foldlM_cons, hstep]
      exact hrun
    · rw [List.flatMap_cons, ← List.append_assoc]
      exact h'

/-- **The digest of a message does not depend on the pieces**, nor on what was in the buffer; nothing is read or written
outside the buffer and the data. -/
theorem md5_pieces (buffer : Md5Buffer) (pieces : List Md5Piece) :
    md5Pieces buffer pieces = some (digest (pieces.flatMap Md5Piece.bytes), md5Zero) := by
  obtain ⟨ctx, hrun, h⟩ := foldlM_md5Update (md5Init_holds buffer) pieces
  rw [List.nil_append] at h
  rw [md5Pieces, hrun]
  exact md5Final_eq h

/-- The string hash that there is: the first half of the digest. What is proved for any string hash holds with it. -/
@[reducible] def md5Hash : StrHash where
  strhash64 str := .ofNat (ofBytes ((digest str.bytes).take 8))

/-- **`strhash64` is the first half of the digest** of the string, whatever the stack held. -/
theorem md5Strhash64_eq (stack : Md5Buffer) (str : CString) (hlen : str.strlen < 2 ^ 64) :
    md5Strhash64 stack str = some (md5Hash.strhash64 str) := by
  have hsize : (UInt64.ofNat str.strlen).toNat = str.bytes.length := UInt64.toNat_ofNat_of_lt' hlen
  obtain ⟨ctx, hrun, h⟩ := md5Update_holds (md5Init_holds stack) hsize.le
  rw [hsize, List.take_length, List.nil_append] at h
  rw [md5Strhash64, hrun]
  simp only [Option.bind_eq_bind, Option.bind_some, md5Final_eq h]
  rfl

/-- The hash of `"a"` is the one that the examples take for it. -/
theorem md5Strhash64_oneLetter :
    md5Strhash64 md5Zero.buffer (.ofString "a") = some (md5Hash.strhash64 (.ofString "a")) ∧
      md5Hash.strhash64 (.ofString "a") = md5Sample.strhash64 (.ofString "a") :=
  ⟨md5Strhash64_eq md5Zero.buffer (.ofString "a") (by decide), by decide +kernel⟩

end Cs162Hw.Kv
