import Leoman.Lib.ByteWriter

namespace Leoman.Print

open ByteMem ByteWriter

/-!
# Formatted printing (`kernel/print.c`)

`kvformat` scans a format and writes to a buffer: through `putch`, which moves the pointer to the
buffer on, and for what stands between conversions directly.  The size of the buffer is handed to
every function and looked at by none.

* `putch`, `puts`, `putDigit`, `putd`, `puthd` — what writes;
* `convert`, `kvformatLoop`, `kvformat` — the scanner; `kprintf` gives it a cleared buffer;
* `putd_eq`, `puthd_eq`, `puts_eq` — the bytes that a number or a string puts into the buffer.

The variable arguments are the words on the stack, and `va_arg` takes the next one.  The state
records which bytes are read through `p`, and which are written to.
-/

/-! ### The pieces -/

/-- `putch`. -/
def putch (buf : Writer) (ch : BitVec 8) : Writer := buf.put ch

/-- `puts`, of `rounds` characters at most. -/
def puts : Nat → Writer → BitVec 32 → Option Writer
  | 0, _, _ => none
  | n + 1, buf, s =>
    if buf.mem s ≠ 0x00#8 then puts n (putch buf (buf.mem s)) (s + 1#32) else some buf

/-- `digits`. -/
def digits : List (BitVec 8) :=
  [0x30#8, 0x31#8, 0x32#8, 0x33#8, 0x34#8, 0x35#8, 0x36#8, 0x37#8, 0x38#8, 0x39#8, 0x61#8, 0x62#8,
   0x63#8, 0x64#8, 0x65#8, 0x66#8]

/-- `digits[ch % 16]`; no caller has a negative `ch`. -/
def digit (ch : BitVec 8) : BitVec 8 := digits.getD (ch.srem 16#8).toNat 0x00#8

/-- `put_digit`. -/
def putDigit (buf : Writer) (ch : BitVec 8) : Writer := putch buf (digit ch)

/-- The cells of `out` that the loop of `putd` fills, after those filled so far. -/
def putdLoop (v : BitVec 32) (out : List (BitVec 32)) : List (BitVec 32) :=
  if 0 < v.toInt then putdLoop (v.sdiv 10#32) (out ++ [v.srem 10#32]) else out
termination_by v.toNat
decreasing_by
  rename_i hpos
  have hmsb : v.msb = false := by
    rw [BitVec.msb_eq_toInt]
    exact decide_eq_false (by omega)
  have hdiv : v.sdiv 10#32 = v.udiv 10#32 := by
    have h10 : (10#32).msb = false := by decide
    simp [BitVec.sdiv, hmsb, h10]
  have hv : 0 < v.toNat := by
    rw [BitVec.toInt_eq_toNat_of_msb hmsb] at hpos
    omega
  rw [hdiv, BitVec.udiv_eq, BitVec.toNat_udiv]
  exact Nat.div_lt_self hv (by decide)

/-- `putd`.  The cells are printed from the last one down. -/
def putd (buf : Writer) (v : BitVec 32) : Writer :=
  if v = 0#32 then putch buf 0x30#8
  else
    let buf' := if v.toInt < 0 then putch buf 0x2d#8 else buf
    let v' := if v.toInt < 0 then -v else v
    (putdLoop v' []).reverse.foldl (fun buf d => putDigit buf (d.setWidth 8)) buf'

/-- The loop of `puthd`. -/
def puthdLoop (v mask : BitVec 32) (i : BitVec 8) (buf : Writer) : Writer :=
  if 0 < mask.toNat then
    puthdLoop v (mask >>> 4) (i - 1#8)
      (putDigit buf (((mask &&& v) >>> (i.toNat * 4 - 4)).setWidth 8))
  else buf
termination_by mask.toNat
decreasing_by
  rw [BitVec.toNat_ushiftRight, Nat.shiftRight_eq_div_pow]
  exact Nat.div_lt_self (by omega) (by decide)

/-- `puthd`. -/
def puthd (buf : Writer) (v : BitVec 32) : Writer := puthdLoop v 0xf0000000#32 8#8 buf

/-! ### The scanner -/

/-- The buffer, the place in the format, the arguments left, and the addresses read through `p`. -/
structure Scan where
  out : Writer
  p : BitVec 32
  args : List (BitVec 32)
  reads : List (BitVec 32)

/-- The byte at `p`. -/
def Scan.char (s : Scan) : BitVec 8 := s.out.mem s.p

/-- It is read. -/
def Scan.look (s : Scan) : Scan := { s with reads := s.reads ++ [s.p] }

/-- `p++`. -/
def Scan.next (s : Scan) : Scan := { s with p := s.p + 1#32 }

/-- `va_arg`. -/
def Scan.vaArg (s : Scan) : Option (BitVec 32 × Scan) :=
  match s.args with
  | [] => none
  | v :: args => some (v, { s with args := args })

/-- The `switch`. -/
def convert (rounds : Nat) (s : Scan) : Option Scan :=
  if s.char = 0x25#8 then some { s with out := putch s.out 0x25#8 }
  else if s.char = 0x63#8 then do
    let (v, s) ← s.vaArg
    return { s with out := putch s.out (v.setWidth 8) }
  else if s.char = 0x64#8 then do
    let (v, s) ← s.vaArg
    return { s with out := putd s.out v }
  else if s.char = 0x78#8 then do
    let (v, s) ← s.vaArg
    return { s with out := puthd s.out v }
  else if s.char = 0x73#8 then do
    let (v, s) ← s.vaArg
    let out ← puts rounds s.out v
    return { s with out := out }
  else some s

/-- The loop of `kvformat`, and the NUL behind it. -/
def kvformatLoop (rounds : Nat) : Nat → Scan → Option Scan
  | 0, _ => none
  | n + 1, s =>
    if s.char = 0x00#8 then some { s.look with out := s.out.store 0x00#8 }
    else if s.char = 0x25#8 then do
      let s ← convert rounds s.look.next.look
      kvformatLoop rounds n s.next
    else kvformatLoop rounds n { s.look.next with out := s.out.put s.char }

/-- `kvformat`. -/
def kvformat (rounds : Nat) (mem : Mem) (buf _size fmt : BitVec 32) (args : List (BitVec 32)) :
    Option Scan :=
  kvformatLoop rounds rounds ⟨⟨mem, buf, []⟩, fmt, args, []⟩

/-- `KERNEL_MAX_PRINT_SIZE`. -/
def kernelMaxPrintSize : BitVec 32 := 256#32

/-- `memset(buf, '\0', sizeof(buf))`. -/
def memsetBuf (mem : Mem) (buf : BitVec 32) : Mem :=
  fun x => if InRange x buf kernelMaxPrintSize.toNat then 0x00#8 else mem x

/-- `kprintf`, up to the call of `com_puts`.  The buffer is on the stack. -/
def kprintf (rounds : Nat) (mem : Mem) (buf fmt : BitVec 32) (args : List (BitVec 32)) :
    Option Scan :=
  kvformat rounds (memsetBuf mem buf) buf kernelMaxPrintSize fmt args

/-! ### The bytes of a piece -/

/-- The bytes of `putd`. -/
def putdBytes (v : BitVec 32) : List (BitVec 8) :=
  if v = 0#32 then [0x30#8]
  else if v.toInt < 0 then 0x2d#8 :: (putdLoop (-v) []).reverse.map fun d => digit (d.setWidth 8)
  else (putdLoop v []).reverse.map fun d => digit (d.setWidth 8)

/-- The bytes of `puthd`. -/
def puthdBytes (v : BitVec 32) : List (BitVec 8) :=
  (List.range 8).map fun k =>
    digit (((0xf0000000#32 >>> (4 * k) &&& v) >>> (28 - 4 * k)).setWidth 8)

section Bytes

variable {rounds n : Nat} {mem m : Mem} {buf a p x : BitVec 32} {v : BitVec 32} {w w' : Writer}
  {s s' : Scan} {out t : List (BitVec 8)}

/-- `putd` writes its bytes. -/
theorem putd_eq (w : Writer) (v : BitVec 32) : putd w v = w.putAll (putdBytes v) := by
  have hfold : ∀ (ds : List (BitVec 32)) (w : Writer),
      ds.foldl (fun buf d => putDigit buf (d.setWidth 8)) w
        = w.putAll (ds.map fun d => digit (d.setWidth 8)) := fun ds w => by
    rw [Writer.putAll, List.foldl_map]
    rfl
  unfold putd putdBytes
  split
  · rfl
  · dsimp only
    rw [hfold]
    split
    · rfl
    · rfl

/-- `puthd` writes its bytes. -/
theorem puthd_eq (w : Writer) (v : BitVec 32) : puthd w v = w.putAll (puthdBytes v) := by
  unfold puthd
  iterate 8 rw [puthdLoop, if_pos (by decide)]
  rw [puthdLoop, if_neg (by decide)]
  rfl

/-- `puthd` writes eight of them. -/
theorem puthdBytes_length (v : BitVec 32) : (puthdBytes v).length = 8 := by
  rw [puthdBytes, List.length_map, List.length_range]

/-- What `puts` writes to stays on record. -/
theorem puts_written (h : puts rounds w p = some w') (hx : x ∈ w.written) : x ∈ w'.written := by
  induction rounds generalizing w p with
  | zero => exact nomatch h
  | succ n ih =>
    rw [puts] at h
    split at h
    · exact ih h (List.mem_append_left _ hx)
    · cases h
      exact hx

/-- **`puts` writes the string**, when the string is not written over and there are enough
    rounds. -/
theorem puts_eq {size : Nat} (h : Filled m a out w) (hsize : size ≤ 2 ^ 32) (ht : 0x00#8 ∉ t)
    (hst : Stored m p (t ++ [0x00#8]))
    (hapart : ∀ x, InRange x p (t.length + 1) → ¬ InRange x a size)
    (hroom : out.length + t.length ≤ size) :
    puts rounds w p = if t.length < rounds then some (w.putAll t) else none := by
  have hchar : w.mem p = m p :=
    h.mem_eq (by omega) (hapart p (by rw [InRange, BitVec.sub_self]; exact Nat.succ_pos _))
  induction t generalizing out w p rounds with
  | nil =>
    cases rounds with
    | zero => rfl
    | succ n =>
      rw [puts, hchar, hst.head, if_neg (not_not.mpr rfl)]
      exact (if_pos (Nat.succ_pos n)).symm
  | cons c t ih =>
    cases rounds with
    | zero => rfl
    | succ n =>
      have hc : c ≠ 0x00#8 := fun hc => ht (hc ▸ List.mem_cons_self)
      rw [List.length_cons] at hroom
      have hput : Filled m a (out ++ [c]) (putch w c) := h.put (by omega) c
      have hapart' : ∀ x, InRange x (p + 1#32) (t.length + 1) → ¬ InRange x a size := fun x hx =>
        hapart x (inRange_tail hx)
      have hnext : (putch w c).mem (p + 1#32) = m (p + 1#32) :=
        hput.mem_eq (by rw [List.length_append, List.length_singleton]; omega)
          (hapart' _ (by rw [InRange, BitVec.sub_self]; exact Nat.succ_pos _))
      rw [puts, hchar, hst.head, if_pos hc, List.length_cons]
      rw [ih hput (fun hmem => ht (List.mem_cons_of_mem _ hmem)) hst.tail hapart'
        (by rw [List.length_append, List.length_singleton]; omega) hnext]
      simp only [Nat.add_lt_add_iff_right]
      rfl

/-- A string that is too long writes behind the room. -/
theorem puts_overrun {size : Nat} (h : Filled m a out w) (hsize : size < 2 ^ 32) (ht : 0x00#8 ∉ t)
    (hst : Stored m p (t ++ [0x00#8]))
    (hapart : ∀ x, InRange x p (t.length + 1) → ¬ InRange x a size)
    (hle : out.length ≤ size) (hmore : size < out.length + t.length)
    (hrun : puts rounds w p = some w') : a + BitVec.ofNat 32 size ∈ w'.written := by
  have hchar : w.mem p = m p :=
    h.mem_eq hle (hapart p (by rw [InRange, BitVec.sub_self]; exact Nat.succ_pos _))
  induction t generalizing out w p rounds with
  | nil =>
    rw [List.length_nil] at hmore
    omega
  | cons c t ih =>
    cases rounds with
    | zero =>
      rw [puts] at hrun
      cases hrun
    | succ n =>
      have hc : c ≠ 0x00#8 := fun hc => ht (hc ▸ List.mem_cons_self)
      rw [List.length_cons] at hmore
      rw [puts, hchar, hst.head, if_pos hc] at hrun
      by_cases hfull : out.length = size
      · -- there is no room for this character
        refine puts_written hrun (List.mem_append_right _ ?_)
        rw [List.mem_singleton, h.ptr, hfull]
      · have hput : Filled m a (out ++ [c]) (putch w c) := h.put (by omega) c
        have hapart' : ∀ x, InRange x (p + 1#32) (t.length + 1) → ¬ InRange x a size := fun x hx =>
          hapart x (inRange_tail hx)
        have hlen : (out ++ [c]).length = out.length + 1 := by
          rw [List.length_append, List.length_singleton]
        exact ih hput (fun hmem => ht (List.mem_cons_of_mem _ hmem)) hst.tail hapart' (by omega)
          (by omega) hrun (hput.mem_eq (by omega)
            (hapart' _ (by rw [InRange, BitVec.sub_self]; exact Nat.succ_pos _)))

end Bytes

end Leoman.Print
