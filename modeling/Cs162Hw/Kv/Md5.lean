import Cs162Hw.Kv.Message
import Cs162Hw.Library.Bytes

/-!
# MD5

The message digest under `strhash64` (`md5.c`). A context takes the message in pieces, keeps what does not fill a block
of 64 bytes in a buffer, and counts the bytes in two words.

* The 64 lines of `body` stand in a table as the source has them: for each the function, the order of the registers,
  the word it reads, the constant and the shift.
* `none` is an access outside the buffer, or beyond the data.
* A pointer to data is the list of the bytes that may be read there.
* `SET(n)` and `GET(n)` read four bytes as the machine does, the lowest first. Their other definitions, for any machine, and
  the array `block`, which is for these only, are left out.
-/

namespace Cs162Hw.Kv

open Library

/-! ## The lines of `body` -/

/-- The basic functions, `H2` the other form of `H`. -/
inductive Md5Fn where
  | F | G | H | H2 | I
  deriving DecidableEq

/-- The macros `F` to `I`. -/
def Md5Fn.apply : Md5Fn → UInt32 → UInt32 → UInt32 → UInt32
  | F, x, y, z => z ^^^ (x &&& (y ^^^ z))
  | G, x, y, z => y ^^^ (z &&& (x ^^^ y))
  | H, x, y, z => (x ^^^ y) ^^^ z
  | H2, x, y, z => x ^^^ (y ^^^ z)
  | I, x, y, z => y ^^^ (x ||| ~~~z)

/-- What the macro `STEP` makes of its `a`. -/
def md5Step (f : UInt32 → UInt32 → UInt32 → UInt32) (a b c d x t s : UInt32) : UInt32 :=
  let a := a + (f b c d + x + t)
  let a := (a <<< s) ||| ((a &&& 0xffffffff) >>> (32 - s))
  a + b

/-- `SET(n)` and `GET(n)`: a word of the data at `ptr`. -/
def md5Word (ptr : List UInt8) (n : ℕ) : UInt32 := .ofNat (ofBytes ((ptr.drop (n * 4)).take 4))

/-- The names of the registers. -/
inductive Md5Reg where
  | a | b | c | d
  deriving DecidableEq

/-- The registers. -/
structure Md5Regs where
  /-- `a`. -/
  a : UInt32
  /-- `b`. -/
  b : UInt32
  /-- `c`. -/
  c : UInt32
  /-- `d`. -/
  d : UInt32
  deriving DecidableEq

namespace Md5Regs

/-- What is in a register. -/
def get (r : Md5Regs) : Md5Reg → UInt32
  | .a => r.a
  | .b => r.b
  | .c => r.c
  | .d => r.d

/-- A register is changed. -/
def set (r : Md5Regs) (v : UInt32) : Md5Reg → Md5Regs
  | .a => { r with a := v }
  | .b => { r with b := v }
  | .c => { r with c := v }
  | .d => { r with d := v }

/-- `a += saved_a`, and so on. -/
def add (r saved : Md5Regs) : Md5Regs := ⟨r.a + saved.a, r.b + saved.b, r.c + saved.c, r.d + saved.d⟩

end Md5Regs

/-- A line `STEP(f, a, b, c, d, SET(n), t, s)`. -/
structure Md5Line where
  /-- The function. -/
  f : Md5Fn
  /-- The register it changes. -/
  a : Md5Reg
  /-- The first that it reads. -/
  b : Md5Reg
  /-- The second. -/
  c : Md5Reg
  /-- The third. -/
  d : Md5Reg
  /-- The word. -/
  n : ℕ
  /-- The constant. -/
  t : UInt32
  /-- The shift. -/
  s : UInt32
  deriving DecidableEq

/-- A line, done with the data at `ptr`. -/
def Md5Line.run (ptr : List UInt8) (r : Md5Regs) (l : Md5Line) : Md5Regs :=
  r.set (md5Step l.f.apply (r.get l.a) (r.get l.b) (r.get l.c) (r.get l.d) (md5Word ptr l.n) l.t l.s) l.a

/-- The 64 lines. -/
def md5Lines : List Md5Line := [
  -- Round 1
  ⟨.F, .a, .b, .c, .d, 0, 0xd76aa478, 7⟩, ⟨.F, .d, .a, .b, .c, 1, 0xe8c7b756, 12⟩,
  ⟨.F, .c, .d, .a, .b, 2, 0x242070db, 17⟩, ⟨.F, .b, .c, .d, .a, 3, 0xc1bdceee, 22⟩,
  ⟨.F, .a, .b, .c, .d, 4, 0xf57c0faf, 7⟩, ⟨.F, .d, .a, .b, .c, 5, 0x4787c62a, 12⟩,
  ⟨.F, .c, .d, .a, .b, 6, 0xa8304613, 17⟩, ⟨.F, .b, .c, .d, .a, 7, 0xfd469501, 22⟩,
  ⟨.F, .a, .b, .c, .d, 8, 0x698098d8, 7⟩, ⟨.F, .d, .a, .b, .c, 9, 0x8b44f7af, 12⟩,
  ⟨.F, .c, .d, .a, .b, 10, 0xffff5bb1, 17⟩, ⟨.F, .b, .c, .d, .a, 11, 0x895cd7be, 22⟩,
  ⟨.F, .a, .b, .c, .d, 12, 0x6b901122, 7⟩, ⟨.F, .d, .a, .b, .c, 13, 0xfd987193, 12⟩,
  ⟨.F, .c, .d, .a, .b, 14, 0xa679438e, 17⟩, ⟨.F, .b, .c, .d, .a, 15, 0x49b40821, 22⟩,
  -- Round 2
  ⟨.G, .a, .b, .c, .d, 1, 0xf61e2562, 5⟩, ⟨.G, .d, .a, .b, .c, 6, 0xc040b340, 9⟩,
  ⟨.G, .c, .d, .a, .b, 11, 0x265e5a51, 14⟩, ⟨.G, .b, .c, .d, .a, 0, 0xe9b6c7aa, 20⟩,
  ⟨.G, .a, .b, .c, .d, 5, 0xd62f105d, 5⟩, ⟨.G, .d, .a, .b, .c, 10, 0x02441453, 9⟩,
  ⟨.G, .c, .d, .a, .b, 15, 0xd8a1e681, 14⟩, ⟨.G, .b, .c, .d, .a, 4, 0xe7d3fbc8, 20⟩,
  ⟨.G, .a, .b, .c, .d, 9, 0x21e1cde6, 5⟩, ⟨.G, .d, .a, .b, .c, 14, 0xc33707d6, 9⟩,
  ⟨.G, .c, .d, .a, .b, 3, 0xf4d50d87, 14⟩, ⟨.G, .b, .c, .d, .a, 8, 0x455a14ed, 20⟩,
  ⟨.G, .a, .b, .c, .d, 13, 0xa9e3e905, 5⟩, ⟨.G, .d, .a, .b, .c, 2, 0xfcefa3f8, 9⟩,
  ⟨.G, .c, .d, .a, .b, 7, 0x676f02d9, 14⟩, ⟨.G, .b, .c, .d, .a, 12, 0x8d2a4c8a, 20⟩,
  -- Round 3
  ⟨.H, .a, .b, .c, .d, 5, 0xfffa3942, 4⟩, ⟨.H2, .d, .a, .b, .c, 8, 0x8771f681, 11⟩,
  ⟨.H, .c, .d, .a, .b, 11, 0x6d9d6122, 16⟩, ⟨.H2, .b, .c, .d, .a, 14, 0xfde5380c, 23⟩,
  ⟨.H, .a, .b, .c, .d, 1, 0xa4beea44, 4⟩, ⟨.H2, .d, .a, .b, .c, 4, 0x4bdecfa9, 11⟩,
  ⟨.H, .c, .d, .a, .b, 7, 0xf6bb4b60, 16⟩, ⟨.H2, .b, .c, .d, .a, 10, 0xbebfbc70, 23⟩,
  ⟨.H, .a, .b, .c, .d, 13, 0x289b7ec6, 4⟩, ⟨.H2, .d, .a, .b, .c, 0, 0xeaa127fa, 11⟩,
  ⟨.H, .c, .d, .a, .b, 3, 0xd4ef3085, 16⟩, ⟨.H2, .b, .c, .d, .a, 6, 0x04881d05, 23⟩,
  ⟨.H, .a, .b, .c, .d, 9, 0xd9d4d039, 4⟩, ⟨.H2, .d, .a, .b, .c, 12, 0xe6db99e5, 11⟩,
  ⟨.H, .c, .d, .a, .b, 15, 0x1fa27cf8, 16⟩, ⟨.H2, .b, .c, .d, .a, 2, 0xc4ac5665, 23⟩,
  -- Round 4
  ⟨.I, .a, .b, .c, .d, 0, 0xf4292244, 6⟩, ⟨.I, .d, .a, .b, .c, 7, 0x432aff97, 10⟩,
  ⟨.I, .c, .d, .a, .b, 14, 0xab9423a7, 15⟩, ⟨.I, .b, .c, .d, .a, 5, 0xfc93a039, 21⟩,
  ⟨.I, .a, .b, .c, .d, 12, 0x655b59c3, 6⟩, ⟨.I, .d, .a, .b, .c, 3, 0x8f0ccc92, 10⟩,
  ⟨.I, .c, .d, .a, .b, 10, 0xffeff47d, 15⟩, ⟨.I, .b, .c, .d, .a, 1, 0x85845dd1, 21⟩,
  ⟨.I, .a, .b, .c, .d, 8, 0x6fa87e4f, 6⟩, ⟨.I, .d, .a, .b, .c, 15, 0xfe2ce6e0, 10⟩,
  ⟨.I, .c, .d, .a, .b, 6, 0xa3014314, 15⟩, ⟨.I, .b, .c, .d, .a, 13, 0x4e0811a1, 21⟩,
  ⟨.I, .a, .b, .c, .d, 4, 0xf7537e82, 6⟩, ⟨.I, .d, .a, .b, .c, 11, 0xbd3af235, 10⟩,
  ⟨.I, .c, .d, .a, .b, 2, 0x2ad7d2bb, 15⟩, ⟨.I, .b, .c, .d, .a, 9, 0xeb86d391, 21⟩]

/-! ## The context -/

/-- The buffer of a context. -/
structure Md5Buffer where
  /-- Its bytes. -/
  bytes : List UInt8
  /-- They are 64. -/
  length_bytes : bytes.length = 64
  deriving DecidableEq

/-- The bytes are put into the buffer from position `pos`, with `memcpy`, `memset` or one by one. -/
def Md5Buffer.put (b : Md5Buffer) (pos : ℕ) (l : List UInt8) : Option Md5Buffer :=
  if h : pos + l.length ≤ 64 then
    some ⟨b.bytes.take pos ++ l ++ b.bytes.drop (pos + l.length), by
      have hb := b.length_bytes
      simp only [List.length_append, List.length_take, List.length_drop]
      omega⟩
  else none

/-- `MD5_CTX`. -/
structure Md5Ctx where
  /-- The lower 29 bits of the number of bytes. -/
  lo : UInt32
  /-- The bits above them. -/
  hi : UInt32
  /-- `a`, `b`, `c` and `d`. -/
  regs : Md5Regs
  /-- What does not fill a block. -/
  buffer : Md5Buffer
  deriving DecidableEq

/-- The buffer of the context is written from position `pos`. -/
def Md5Ctx.put (ctx : Md5Ctx) (pos : ℕ) (l : List UInt8) : Option Md5Ctx :=
  (ctx.buffer.put pos l).map fun buffer => { ctx with buffer := buffer }

/-- `memcpy(&ctx->buffer[pos], data, size)`. -/
def Md5Ctx.memcpy (ctx : Md5Ctx) (pos : ℕ) (data : List UInt8) (size : UInt64) : Option Md5Ctx :=
  if size.toNat ≤ data.length then ctx.put pos (data.take size.toNat) else none

/-- The loop of `body`. The first argument is the number of blocks behind `ptr`: a further round reads beyond the data. -/
def md5BodyLoop : ℕ → List UInt8 → UInt64 → Md5Regs → Option (Md5Regs × List UInt8)
  | 0, _, _, _ => none
  | k + 1, ptr, size, saved =>
    let r := (md5Lines.foldl (Md5Line.run ptr) saved).add saved
    if size - 64 = 0 then some (r, ptr.drop 64) else md5BodyLoop k (ptr.drop 64) (size - 64) r

/-- `body`, with the pointer it returns. -/
def md5Body (ctx : Md5Ctx) (data : List UInt8) (size : UInt64) : Option (Md5Ctx × List UInt8) :=
  (md5BodyLoop (data.length / 64) data size ctx.regs).map fun (r, ptr) => ({ ctx with regs := r }, ptr)

/-- The registers before the first block. -/
def md5Start : Md5Regs := ⟨0x67452301, 0xefcdab89, 0x98badcfe, 0x10325476⟩

/-- `MD5_Init`, of a context that has something in its buffer. -/
def md5Init (buffer : Md5Buffer) : Md5Ctx := ⟨0, 0, md5Start, buffer⟩

/-- The count of bytes, `size` more. -/
def Md5Ctx.count (ctx : Md5Ctx) (size : UInt64) : Md5Ctx :=
  let savedLo := ctx.lo
  let lo := ((savedLo.toUInt64 + size) &&& 0x1fffffff).toUInt32
  let hi := if lo < savedLo then ctx.hi + 1 else ctx.hi
  { ctx with lo := lo, hi := (hi.toUInt64 + size >>> 29).toUInt32 }

/-- `MD5_Update` where the buffer is empty: the whole blocks, and what is behind them goes to the buffer. -/
def md5UpdateBlocks (ctx : Md5Ctx) (data : List UInt8) (size : UInt64) : Option Md5Ctx :=
  if 64 ≤ size then do
    let (ctx, data) ← md5Body ctx data (size &&& ~~~0x3f)
    ctx.memcpy 0 data (size &&& 0x3f)
  else ctx.memcpy 0 data size

/-- `MD5_Update`. -/
def md5Update (ctx : Md5Ctx) (data : List UInt8) (size : UInt64) : Option Md5Ctx :=
  let used := ctx.lo.toUInt64 &&& 0x3f
  let ctx := ctx.count size
  if used ≠ 0 then
    let available := 64 - used
    if size < available then ctx.memcpy used.toNat data size
    else do
      let ctx ← ctx.memcpy used.toNat data available
      let (ctx, _) ← md5Body ctx ctx.buffer.bytes 64
      md5UpdateBlocks ctx (data.drop available.toNat) (size - available)
  else md5UpdateBlocks ctx data size

/-- `p[0] = w; p[1] = w >> 8; p[2] = w >> 16; p[3] = w >> 24`. -/
def md5Bytes (w : UInt32) : List UInt8 :=
  [w.toUInt8, (w >>> 8).toUInt8, (w >>> 16).toUInt8, (w >>> 24).toUInt8]

/-- The bytes of the registers. -/
def Md5Regs.bytes (r : Md5Regs) : List UInt8 := md5Bytes r.a ++ md5Bytes r.b ++ md5Bytes r.c ++ md5Bytes r.d

/-- `memset(ctx, 0, sizeof(*ctx))`. -/
def md5Zero : Md5Ctx := ⟨0, 0, ⟨0, 0, 0, 0⟩, ⟨List.replicate 64 0, rfl⟩⟩

/-- `MD5_Final` before the length is written, the byte `0x80` in the buffer: zeros up to the last eight bytes of a
block. -/
def md5FinalZeros (ctx : Md5Ctx) (used : UInt64) : Option Md5Ctx :=
  let available := 64 - used
  if available < 8 then do
    let ctx ← ctx.put used.toNat (List.replicate available.toNat 0)
    let (ctx, _) ← md5Body ctx ctx.buffer.bytes 64
    ctx.put 0 (List.replicate (64 - 8) 0)
  else ctx.put used.toNat (List.replicate (available - 8).toNat 0)

/-- `MD5_Final`: the result, and what is left of the context. -/
def md5Final (ctx : Md5Ctx) : Option (List UInt8 × Md5Ctx) := do
  let used := ctx.lo.toUInt64 &&& 0x3f
  let ctx ← ctx.put used.toNat [0x80]
  let ctx ← md5FinalZeros ctx (used + 1)
  let ctx := { ctx with lo := ctx.lo <<< 3 }
  let ctx ← ctx.put 56 (md5Bytes ctx.lo ++ md5Bytes ctx.hi)
  let (ctx, _) ← md5Body ctx ctx.buffer.bytes 64
  pure (ctx.regs.bytes, md5Zero)

/-- `strhash64` as the header defines it: the first half of the digest, read as an integer. The context is on the stack
and begins with whatever is there. -/
def md5Strhash64 (stack : Md5Buffer) (str : CString) : Option UInt64 := do
  let ctx ← md5Update (md5Init stack) str.bytes (.ofNat str.strlen)
  let (result, _) ← md5Final ctx
  pure (.ofNat (ofBytes (result.take 8)))

end Cs162Hw.Kv
