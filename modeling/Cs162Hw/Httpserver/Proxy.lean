import Mathlib.Data.List.Basic
import Mathlib.Data.Nat.Notation
import Mathlib.Order.Nat

/-!
# The proxy

`handle_proxy_request` of `hw2/httpserver.c`, once it is connected: the child passes on what the target sends,
the parent what the client sends. Each does it in a loop of its own, and the two are the same but for what they ask `write`
to write: the child what it has read, the parent the whole buffer. Neither looks at how much of it `write` has written.

* `relay_of_written`: if each `write` writes exactly what has been read, all of it arrives, and nothing else.
* **`proxy_relays_iff`**: if a `write` of the child writes anything else, something is missing on the other side; if one of
  the parent does, there are bytes for which the other side gets others.
-/

namespace Cs162Hw.Httpserver

/-! ## The loops -/

/-- `sizeof(buf)`. -/
def sizeofBuf : ℕ := 1024

/-- `char buf[1024]`. -/
@[ext]
structure Buf where
  /-- What it holds. -/
  bytes : List UInt8
  /-- It is full, if only of what it has held before. -/
  length_eq : bytes.length = sizeofBuf

/-- What `read` and `write` do in one turn of a loop, if `read` does not return `0` or `-1`. -/
structure Turn where
  /-- What is read. -/
  bytes : List UInt8
  /-- It is something. -/
  ne_nil : bytes ≠ []
  /-- It has its place in the buffer. -/
  fits : bytes.length ≤ sizeofBuf
  /-- What `write` returns, unless that is `-1`. -/
  bytesWrite : Option ℕ

/-- `bytes_read`. -/
def Turn.bytesRead (t : Turn) : ℕ := t.bytes.length

/-- `read`. -/
def Buf.read (buf : Buf) (t : Turn) : Buf where
  bytes := t.bytes ++ buf.bytes.drop t.bytesRead
  length_eq := by
    have hfits := t.fits
    rw [List.length_append, List.length_drop, buf.length_eq, Turn.bytesRead]
    omega

/-- What is written in a loop that asks `write` to write `asks bytes_read` bytes. It ends where `read` returns `0` or `-1`,
or `write` returns `-1`. -/
def relay (asks : ℕ → ℕ) (buf : Buf) : List Turn → List UInt8
  | [] => []
  | t :: turns =>
    match t.bytesWrite with
    | none => []
    | some bytesWrite =>
      ((buf.read t).bytes.take (asks t.bytesRead)).take bytesWrite ++ relay asks (buf.read t) turns

/-- The child, from `socket_num` to `fd`: `write(fd, buf, bytes_read)`. -/
def childRelay : Buf → List Turn → List UInt8 := relay fun bytesRead => bytesRead

/-- The parent, from `fd` to `socket_num`: `write(socket_num, buf, sizeof(buf))`. -/
def parentRelay : Buf → List Turn → List UInt8 := relay fun _ => sizeofBuf

/-- What has been read. -/
def received (turns : List Turn) : List UInt8 := turns.flatMap Turn.bytes

/-- `write` writes something, and no more than it is asked to. -/
def Turn.Writes (asks : ℕ → ℕ) (t : Turn) : Prop :=
  ∃ bytesWrite, t.bytesWrite = some bytesWrite ∧ 0 < bytesWrite ∧ bytesWrite ≤ asks t.bytesRead

/-- `write` writes as much as has been read. -/
def Turn.Written (t : Turn) : Prop := t.bytesWrite = some t.bytesRead

/-- How much is read and what `write` returns. -/
def Turn.sizes (t : Turn) : ℕ × Option ℕ := (t.bytesRead, t.bytesWrite)

/-! ## Where each `write` writes what has been read -/

section

variable {asks : ℕ → ℕ} {buf : Buf} {t t' : Turn} {turns : List Turn} {r : ℕ}

@[simp] theorem received_cons : received (t :: turns) = t.bytes ++ received turns := List.flatMap_cons

@[simp] theorem relay_nil : relay asks buf [] = [] := rfl

theorem relay_cons (hr : t.bytesWrite = some r) (hle : r ≤ asks t.bytesRead) :
    relay asks buf (t :: turns) = (buf.read t).bytes.take r ++ relay asks (buf.read t) turns := by
  rw [relay, hr]
  show ((buf.read t).bytes.take (asks t.bytesRead)).take r ++ _ = _
  rw [List.take_take, Nat.min_eq_left hle]

theorem Turn.bytesRead_pos : 0 < t.bytesRead := List.length_pos_of_ne_nil t.ne_nil

theorem Buf.read_take_le (hle : r ≤ t.bytesRead) : (buf.read t).bytes.take r = t.bytes.take r :=
  List.take_append_of_le_length hle

/-- A turn that writes what has been read. -/
theorem relay_written (hasks : ∀ n, n ≤ sizeofBuf → n ≤ asks n) (ht : t.Written) :
    relay asks buf (t :: turns) = t.bytes ++ relay asks (buf.read t) turns := by
  rw [relay_cons ht (hasks _ t.fits), Buf.read_take_le le_rfl, Turn.bytesRead, List.take_length]

/-- **What has been read is written**, if each turn writes what it has read. -/
theorem relay_of_written (hasks : ∀ n, n ≤ sizeofBuf → n ≤ asks n) (h : ∀ t ∈ turns, t.Written) :
    relay asks buf turns = received turns := by
  induction turns generalizing buf with
  | nil => rfl
  | cons t turns ih =>
    obtain ⟨ht, h⟩ := List.forall_mem_cons.mp h
    rw [relay_written hasks ht, ih h, received_cons]

/-! ## The child -/

/-- The child writes no more than it has read, and less if any of its writes is short. -/
theorem childRelay_length (h : ∀ t ∈ turns, t.Writes fun n => n) :
    (childRelay buf turns).length ≤ (received turns).length ∧
      ((childRelay buf turns).length = (received turns).length → ∀ t ∈ turns, t.Written) := by
  induction turns generalizing buf with
  | nil => exact ⟨le_rfl, fun _ _ ht => absurd ht List.not_mem_nil⟩
  | cons t turns ih =>
    obtain ⟨⟨r, hr, -, hle⟩, h⟩ := List.forall_mem_cons.mp h
    obtain ⟨hless, hall⟩ := @ih (buf.read t) h
    have hlen : (childRelay buf (t :: turns)).length = r + (childRelay (buf.read t) turns).length := by
      rw [childRelay, relay_cons hr hle, Buf.read_take_le hle, List.length_append, List.length_take]
      exact congrArg (· + _) (Nat.min_eq_left hle)
    rw [hlen, received_cons, List.length_append]
    change r ≤ t.bytes.length at hle
    constructor
    · omega
    · intro heq
      refine List.forall_mem_cons.mpr ⟨?_, hall (by omega)⟩
      rw [Turn.Written, hr, Turn.bytesRead]
      congr 1
      omega

/-! ## What is read may be anything -/

/-- A turn that reads as much, but of one byte. -/
def Turn.filled (x : UInt8) (t : Turn) : Turn where
  bytes := List.replicate t.bytesRead x
  ne_nil := by
    rw [ne_eq, List.replicate_eq_nil_iff]
    exact Turn.bytesRead_pos.ne'
  fits := by
    rw [List.length_replicate]
    exact t.fits
  bytesWrite := t.bytesWrite

/-- A buffer of one byte. -/
def Buf.filled (x : UInt8) : Buf := ⟨List.replicate sizeofBuf x, List.length_replicate⟩

@[simp] theorem Turn.filled_bytesRead (x : UInt8) (t : Turn) : (t.filled x).bytesRead = t.bytesRead := List.length_replicate

@[simp] theorem Turn.filled_sizes (x : UInt8) (t : Turn) : (t.filled x).sizes = t.sizes :=
  Prod.ext (t.filled_bytesRead x) rfl

theorem Buf.filled_read (x : UInt8) (t : Turn) : (Buf.filled x).read (t.filled x) = .filled x := by
  have hfits := t.fits
  simp only [Buf.filled, Buf.read, Turn.filled, Turn.bytesRead, List.length_replicate, List.drop_replicate,
    List.replicate_append_replicate, Buf.mk.injEq]
  congr 1
  omega

theorem Turn.filled_bytes (x : UInt8) (t : Turn) : ∃ l, (t.filled x).bytes = x :: l := by
  obtain ⟨n, hn⟩ := Nat.exists_eq_succ_of_ne_zero t.bytesRead_pos.ne'
  refine ⟨List.replicate n x, ?_⟩
  show List.replicate t.bytesRead x = _
  rw [hn, List.replicate_succ]

theorem Turn.Writes.filled (h : t.Writes asks) (x : UInt8) : (t.filled x).Writes asks := by
  obtain ⟨r, hr, hpos, hle⟩ := h
  exact ⟨r, hr, hpos, (t.filled_bytesRead x).symm ▸ hle⟩

theorem head_received_filled (y : UInt8) : ∀ z ∈ (received (turns.map (Turn.filled y))).head?, z = y := by
  cases turns with
  | nil => exact fun z hz => (Option.not_mem_none z hz).elim
  | cons t turns =>
    obtain ⟨l, hl⟩ := t.filled_bytes y
    rintro z hz
    rw [List.map_cons, received_cons, hl] at hz
    exact (Option.some.inj hz).symm

/-- A turn writes the first byte that it has read. -/
theorem head_relay_filled (y : UInt8) (h : ∀ t ∈ turns, t.Writes asks) :
    ∀ z ∈ (relay asks buf (turns.map (Turn.filled y))).head?, z = y := by
  cases turns with
  | nil => exact fun z hz => (Option.not_mem_none z hz).elim
  | cons t turns =>
    obtain ⟨r, hr, hpos, hle⟩ := (List.forall_mem_cons.mp h).1.filled y
    obtain ⟨r, rfl⟩ := Nat.exists_eq_succ_of_ne_zero hpos.ne'
    obtain ⟨l, hl⟩ := t.filled_bytes y
    rintro z hz
    have hread : (buf.read (t.filled y)).bytes = y :: (l ++ buf.bytes.drop (t.filled y).bytesRead) := by
      rw [← List.cons_append, ← hl]
      rfl
    rw [List.map_cons, relay_cons hr hle, hread] at hz
    exact (Option.some.inj hz).symm

/-- Where two lists begin with as many bytes `x` as can be, there are as many of them. -/
theorem replicate_append_inj {x : UInt8} {m n : ℕ} {l l' : List UInt8} (hl : ∀ z ∈ l.head?, z ≠ x)
    (hl' : ∀ z ∈ l'.head?, z ≠ x) (h : List.replicate m x ++ l = List.replicate n x ++ l') : m = n := by
  induction m generalizing n with
  | zero =>
    cases n with
    | zero => rfl
    | succ n =>
      subst h
      exact absurd rfl (hl x rfl)
  | succ m ih =>
    cases n with
    | zero =>
      subst h
      exact absurd rfl (hl' x rfl)
    | succ n => exact congrArg _ (ih (List.cons.inj h).2)

theorem Turn.Written.of_sizes (h : t.Written) (hsizes : t'.sizes = t.sizes) : t'.Written := by
  obtain ⟨hread, hwrite⟩ := Prod.mk.inj hsizes
  rw [Turn.Written, hwrite, hread]
  exact h

/-- Any buffer is what a turn leaves. -/
theorem Buf.exists_read (buf : Buf) (t : Turn) : ∃ t' : Turn, t'.sizes = t.sizes ∧ buf.read t' = buf := by
  have hlen : (buf.bytes.take t.bytesRead).length = t.bytesRead := by
    rw [List.length_take, buf.length_eq]
    exact Nat.min_eq_left t.fits
  refine ⟨⟨buf.bytes.take t.bytesRead, ?_, hlen.trans_le t.fits, t.bytesWrite⟩, Prod.ext hlen rfl, ?_⟩
  · exact List.ne_nil_of_length_pos (hlen.symm ▸ t.bytesRead_pos)
  · refine Buf.ext ?_
    calc buf.bytes.take t.bytesRead ++ buf.bytes.drop (buf.bytes.take t.bytesRead).length
        = buf.bytes.take t.bytesRead ++ buf.bytes.drop t.bytesRead := by rw [hlen]
      _ = buf.bytes := List.take_append_drop ..

/-- The first turn of all is found out, if it does not write what it has read, by bytes of which all that it reads are
different from all that is read later. -/
theorem written_of_relay (hasks : ∀ n, n ≤ sizeofBuf → asks n ≤ sizeofBuf) (ht : t.Writes asks)
    (h : ∀ t ∈ turns, t.Writes asks)
    (heq : relay asks (.filled 0) (t.filled 0 :: turns.map (Turn.filled 1)) =
      received (t.filled 0 :: turns.map (Turn.filled 1))) : t.Written := by
  obtain ⟨r, hr, -, hle⟩ := ht.filled 0
  have htake : (Buf.filled 0).bytes.take r = List.replicate r 0 := by
    rw [Buf.filled, List.take_replicate, Nat.min_eq_left (hle.trans (hasks _ (t.filled 0).fits))]
  rw [relay_cons hr hle, received_cons, Buf.filled_read, htake] at heq
  have hne : ∀ {o : Option UInt8}, (∀ z ∈ o, z = 1) → ∀ z ∈ o, z ≠ 0 := fun ho z hz hz0 =>
    absurd ((ho z hz).symm.trans hz0) (by decide)
  have hlen := replicate_append_inj (hne (head_relay_filled 1 h)) (hne (head_received_filled 1)) heq
  exact hr.trans (congrArg some hlen)

/-- **Whatever is read is what is written** exactly if each turn writes what it has read. -/
theorem relay_iff (hasks : ∀ n, n ≤ sizeofBuf → n ≤ asks n ∧ asks n ≤ sizeofBuf) (h : ∀ t ∈ turns, t.Writes asks) :
    (∀ buf turns', turns'.map Turn.sizes = turns.map Turn.sizes → relay asks buf turns' = received turns') ↔
      ∀ t ∈ turns, t.Written := by
  constructor
  · intro hall
    induction turns with
    | nil => exact fun _ ht => absurd ht List.not_mem_nil
    | cons t turns ih =>
      obtain ⟨ht, h⟩ := List.forall_mem_cons.mp h
      have hwritten : t.Written := by
        refine written_of_relay (fun n hn => (hasks n hn).2) ht h (hall _ _ ?_)
        simp
      refine List.forall_mem_cons.mpr ⟨hwritten, ih h fun buf turns' hsizes => ?_⟩
      obtain ⟨t', ht', hread⟩ := buf.exists_read t
      have heq := hall buf (t' :: turns') (by rw [List.map_cons, List.map_cons, ht', hsizes])
      rw [relay_written (fun n hn => (hasks n hn).1) (hwritten.of_sizes ht'), hread, received_cons] at heq
      exact List.append_cancel_left heq
  · intro hall buf turns' hsizes
    refine relay_of_written (fun n hn => (hasks n hn).1) fun t' ht' => ?_
    obtain ⟨t, ht, he⟩ := List.mem_map.mp (hsizes ▸ List.mem_map_of_mem ht' : t'.sizes ∈ turns.map Turn.sizes)
    exact (hall t ht).of_sizes he.symm

/-- **What the proxy passes on**: what the child writes is what it has read exactly if each `write` writes as much as was
read; what the parent writes is what it has read, whatever bytes these are, exactly if each `write` writes as much as was
read, of the 1024 bytes it is asked to write. -/
theorem proxy_relays_iff (buf : Buf) (turns : List Turn) :
    ((∀ t ∈ turns, t.Writes fun n => n) → (childRelay buf turns = received turns ↔ ∀ t ∈ turns, t.Written)) ∧
      ((∀ t ∈ turns, t.Writes fun _ => sizeofBuf) →
        ((∀ buf turns', turns'.map Turn.sizes = turns.map Turn.sizes → parentRelay buf turns' = received turns') ↔
          ∀ t ∈ turns, t.Written)) := by
  constructor
  · intro h
    constructor
    · intro heq
      exact (childRelay_length h).2 (congrArg _ heq)
    · exact relay_of_written fun _ _ => le_rfl
  · intro h
    exact relay_iff (fun n hn => ⟨hn, le_rfl⟩) h

/-- The client sends `GET`, and `write` writes all that it is asked to. -/
def getTurn : Turn := ⟨[71, 69, 84], by decide, by decide, some sizeofBuf⟩

/-- With three bytes read and three written, all is passed on. -/
theorem proxy_relays_threeBytes :
    (∀ buf, childRelay buf [{ getTurn with bytesWrite := some 3 }] = [71, 69, 84]) ∧
      ∀ buf turns, turns.map Turn.sizes = [(3, some 3)] → parentRelay buf turns = received turns := by
  have hwritten : ∀ t ∈ [{ getTurn with bytesWrite := some 3 }], t.Written := by
    rintro t ht
    obtain rfl := List.mem_singleton.mp ht
    rfl
  have hwrites : ∀ {asks : ℕ → ℕ}, 3 ≤ asks 3 → ∀ t ∈ [{ getTurn with bytesWrite := some 3 }], t.Writes asks := by
    rintro asks hasks t ht
    obtain rfl := List.mem_singleton.mp ht
    exact ⟨3, rfl, by decide, hasks⟩
  constructor
  · exact fun buf => ((proxy_relays_iff buf _).1 (hwrites le_rfl)).mpr hwritten
  · exact ((proxy_relays_iff (.filled 0) _).2 (hwrites (by decide))).mpr hwritten

/-- The target gets 1021 bytes more; and where `write` writes one byte of `GET` to the client, that is all it gets. -/
theorem getTurn_not_relayed :
    (getTurn.Writes (fun _ => sizeofBuf) ∧ ∀ buf, parentRelay buf [getTurn] ≠ received [getTurn]) ∧
      ({ getTurn with bytesWrite := some 1 }.Writes (fun n => n) ∧
        ∀ buf, childRelay buf [{ getTurn with bytesWrite := some 1 }] ≠ received [getTurn]) := by
  refine ⟨⟨⟨sizeofBuf, rfl, by decide, le_rfl⟩, fun buf heq => ?_⟩, ⟨1, rfl, by decide, by decide⟩, fun buf heq => ?_⟩
  · have hlen := congrArg List.length heq
    rw [parentRelay, @relay_cons _ buf getTurn [] sizeofBuf rfl le_rfl, relay_nil, List.append_nil, List.length_take,
      (buf.read getTurn).length_eq] at hlen
    exact absurd hlen (by decide)
  · exact absurd (congrArg List.length heq) (Nat.ne_of_beq_eq_false rfl)

end

end Cs162Hw.Httpserver
