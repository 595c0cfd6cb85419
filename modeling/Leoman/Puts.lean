import Leoman.Screen

namespace Leoman

/-!
# `puts`, from the library to the screen (`lib/libc/puts.c`, `drivers/screen.c`)

`puts` copies a string into the `chars` of a `struct msg_io` on its stack and sends the whole
structure; the screen driver prints `chars` up to the first NUL or to the end of the buffer.

* `putsMsg` — the message, over whatever the stack held before;
* `puts_prints` — what the driver prints: the string, then what the stack held behind it up to
  a NUL, then `one_char`, since the case of `MSG_PUTS` falls through;
* `puts_reads_padding` — for a string of 64 characters it also reads the byte behind `chars`;
* `puts_never_exact` — so no string is ever printed as it is.
-/

/-! ### The message -/

/-- `msg.type = type`. -/
def MsgIo.setType (m : MsgIo) (type : BitVec 32) : MsgIo :=
  fun i => if i < 4 then (type >>> (8 * i)).setWidth 8 else m i

/-- The loop of `puts`, with `s` the rest of the string up to its NUL: no NUL is stored. -/
def putsFill : List (BitVec 8) → Nat → MsgIo → MsgIo
  | [], _, m => m
  | c :: s, i, m =>
    if c = 0x00#8 then m
    else if msgIoBufsize ≤ i then m
    else putsFill s (i + 1) (Function.update m (charsOffset + i) c)

/-- The message `puts` sends, built over what the stack held before. -/
def putsMsg (prior : MsgIo) (s : List (BitVec 8)) : MsgIo := putsFill s 0 (prior.setType msgPuts)

/-- The driver's `msg` after it has received one: `sizeof msg` bytes of it. -/
def received (buffer sent : MsgIo) : MsgIo := fun i => if i < msgIoSize then sent i else buffer i

/-- What the stack held behind the string, up to a NUL or to the end of the buffer. -/
def leftover (prior : MsgIo) (n : Nat) : List (BitVec 8) :=
  ((List.range' n (msgIoBufsize - n)).map fun j => prior (charsOffset + j)).takeWhile (· ≠ 0x00#8)

/-- The driver calls `put_char` on the characters of the string, in order, and on nothing else,
    and reads no byte of the message behind `chars[63]`. -/
def PrintsExactly (s : List (BitVec 8)) (d : Handling) : Prop :=
  d.calls = s ∧ ∀ offset ∈ d.reads, offset < charsOffset + msgIoBufsize

variable {prior buffer m : MsgIo} {s : List (BitVec 8)}

/-- The loop touches only the bytes it fills. -/
theorem putsFill_other {i j : Nat} (hj : j < charsOffset + i ∨ charsOffset + i + s.length ≤ j) :
    putsFill s i m j = m j := by
  induction s generalizing i m with
  | nil => rfl
  | cons c s ih =>
    unfold putsFill
    simp only [List.length_cons] at hj
    split
    · rfl
    · split
      · rfl
      · rw [ih (by omega), Function.update_of_ne (by omega)]

/-- The loop stores the string. -/
theorem putsFill_char (hs : ∀ c ∈ s, c ≠ 0x00#8) {i : Nat} (hlen : i + s.length ≤ msgIoBufsize)
    {j : Nat} (hj : j < s.length) : putsFill s i m (charsOffset + (i + j)) = s[j] := by
  induction s generalizing i j m with
  | nil => exact absurd hj (Nat.not_lt_zero j)
  | cons c s ih =>
    simp only [List.length_cons] at hlen hj
    rw [putsFill, if_neg (hs c List.mem_cons_self), if_neg (by omega)]
    cases j with
    | zero =>
      rw [putsFill_other (Or.inl (by omega))]
      exact Function.update_self ..
    | succ j =>
      have hidx : i + (j + 1) = i + 1 + j := by omega
      rw [hidx]
      exact ih (fun c hc => hs c (List.mem_cons_of_mem _ hc)) (by omega) (by omega)

/-- The message says `MSG_PUTS`. -/
theorem received_type : (received buffer (putsMsg prior s)).type = msgPuts := by
  have hbyte : ∀ i < 4, received buffer (putsMsg prior s) i = (msgPuts >>> (8 * i)).setWidth 8 := by
    intro i hi
    rw [received, if_pos (by unfold msgIoSize; omega), putsMsg,
      putsFill_other (Or.inl (by unfold charsOffset; omega)), MsgIo.setType, if_pos hi]
  rw [MsgIo.type, hbyte 3 (by decide), hbyte 2 (by decide), hbyte 1 (by decide),
    hbyte 0 (by decide)]
  decide

/-- `one_char` is what the stack held. -/
theorem received_oneChar :
    received buffer (putsMsg prior s) oneCharOffset = prior oneCharOffset := by
  rw [received, if_pos (by decide), putsMsg, putsFill_other (Or.inl (by decide)), MsgIo.setType,
    if_neg (by decide)]

/-- `chars` is the string, and behind it what the stack held. -/
theorem received_chars (hs : ∀ c ∈ s, c ≠ 0x00#8) (hlen : s.length ≤ msgIoBufsize) :
    (List.range' 0 msgIoBufsize).map
        (fun j => received buffer (putsMsg prior s) (charsOffset + j)) =
      s ++ (List.range' s.length (msgIoBufsize - s.length)).map fun j =>
        prior (charsOffset + j) := by
  have hbyte : ∀ j < msgIoBufsize, received buffer (putsMsg prior s) (charsOffset + j) =
      putsFill s 0 (prior.setType msgPuts) (charsOffset + j) := by
    intro j hj
    rw [received, if_pos (by unfold msgIoSize charsOffset msgIoBufsize at *; omega), putsMsg]
  apply List.ext_getElem
  · simp only [List.length_map, List.length_range', List.length_append]
    omega
  · intro j hj _
    simp only [List.length_map, List.length_range'] at hj
    rw [List.getElem_map, List.getElem_range', Nat.zero_add, Nat.one_mul, hbyte j hj,
      List.getElem_append]
    by_cases hjs : j < s.length
    · have hchar := putsFill_char (m := prior.setType msgPuts) hs (i := 0) (by omega) hjs
      rw [Nat.zero_add] at hchar
      rw [dif_pos hjs, hchar]
    · rw [dif_neg hjs, putsFill_other (Or.inr (by omega)), MsgIo.setType,
        if_neg (by unfold charsOffset; omega), List.getElem_map, List.getElem_range']
      congr 1
      omega

/-! ### What is printed -/

/-- What the loop of the driver prints from a place in the buffer on. -/
theorem printBuffer_calls (d : Handling) {p : Nat} (hp : p ≤ msgIoBufsize) :
    (printBuffer m d p).calls = d.calls ++
      ((List.range' p (msgIoBufsize - p)).map fun j => m (charsOffset + j)).takeWhile
        (· ≠ 0x00#8) := by
  induction d, p using printBuffer.induct (m := m) with
  | case1 d p hzero =>
    rw [printBuffer, if_pos hzero]
    -- a NUL, or the end of the buffer: nothing is printed either way
    have hnone : ((List.range' p (msgIoBufsize - p)).map fun j => m (charsOffset + j)).takeWhile
        (· ≠ 0x00#8) = [] := by
      cases hn : msgIoBufsize - p with
      | zero => rfl
      | succ n => simp [List.range'_succ, hzero]
    rw [hnone, List.append_nil]
    rfl
  | case2 d p hzero hend =>
    have hlast : msgIoBufsize - p = 0 := by omega
    rw [printBuffer, if_neg hzero, if_pos hend, hlast]
    exact (List.append_nil _).symm
  | case3 d p d' hzero hend ih =>
    have hmore : msgIoBufsize - p = (msgIoBufsize - (p + 1)) + 1 := by omega
    rw [printBuffer, if_neg hzero, if_neg hend, ih (by omega), hmore, List.range'_succ,
      List.map_cons, List.takeWhile_cons_of_pos (by simpa using hzero)]
    simp only [Handling.put, Handling.read, List.append_assoc, List.cons_append, List.nil_append]
    rfl

/-- **What `puts` prints.**  The string, what the stack held behind it up to a NUL, and the byte
    the stack held in the place of `one_char`. -/
theorem puts_prints (screen : Screen) (hs : ∀ c ∈ s, c ≠ 0x00#8) (hlen : s.length ≤ msgIoBufsize) :
    (handle screen (received buffer (putsMsg prior s))).calls =
      s ++ leftover prior s.length ++ [prior oneCharOffset] := by
  unfold handle
  rw [if_pos received_type, received_oneChar]
  simp only [Handling.put, Handling.read]
  rw [printBuffer_calls _ (Nat.zero_le _), Nat.sub_zero, received_chars hs hlen,
    List.takeWhile_append_of_pos (by simpa using hs)]
  rfl

/-- Without a NUL in the buffer the loop goes on to the byte behind it. -/
theorem printBuffer_reads (d : Handling) {p : Nat} (hp : p ≤ msgIoBufsize)
    (hfull : ∀ j, p ≤ j → j < msgIoBufsize → m (charsOffset + j) ≠ 0x00#8) :
    charsOffset + msgIoBufsize ∈ (printBuffer m d p).reads := by
  induction d, p using printBuffer.induct (m := m) with
  | case1 d p hzero =>
    have hlast : p = msgIoBufsize := by
      by_contra hlt
      exact hfull p (Nat.le_refl p) (by omega) hzero
    rw [printBuffer, if_pos hzero, hlast]
    exact List.mem_append_right _ (List.mem_singleton.mpr rfl)
  | case2 d p hzero hend =>
    have hlast : p = msgIoBufsize := by omega
    rw [printBuffer, if_neg hzero, if_pos hend, hlast]
    exact List.mem_append_right _ (List.mem_singleton.mpr rfl)
  | case3 d p d' hzero hend ih =>
    rw [printBuffer, if_neg hzero, if_neg hend]
    exact ih (by omega) fun j hj => hfull j (by omega)

/-- **The byte behind the buffer.**  For a string of 64 characters the driver tests one byte
    more than the buffer has before it looks at its length. -/
theorem puts_reads_padding (screen : Screen) (hs : ∀ c ∈ s, c ≠ 0x00#8)
    (hlen : s.length = msgIoBufsize) :
    charsOffset + msgIoBufsize ∈ (handle screen (received buffer (putsMsg prior s))).reads := by
  have hfull : ∀ j < msgIoBufsize,
      received buffer (putsMsg prior s) (charsOffset + j) ≠ 0x00#8 := by
    intro j hj
    have hchar := putsFill_char (m := prior.setType msgPuts) hs (i := 0) (j := j) (by omega)
      (by omega)
    rw [Nat.zero_add] at hchar
    rw [received, if_pos (by unfold msgIoSize charsOffset msgIoBufsize at *; omega), putsMsg, hchar]
    exact hs _ (List.getElem_mem _)
  have hread := printBuffer_reads (m := received buffer (putsMsg prior s)) ⟨screen, [], []⟩
    (Nat.zero_le _) fun j _ hj => hfull j hj
  unfold handle
  rw [if_pos received_type]
  exact List.mem_append_left _ hread

/-- **No string is printed as it is.**  For every string of at most 64 characters, every content
    of the stack and of the driver's own buffer, and every state of the screen, the driver calls
    `put_char` at least once too often. -/
theorem puts_never_exact (screen : Screen) (prior buffer : MsgIo) (s : List (BitVec 8))
    (hs : ∀ c ∈ s, c ≠ 0x00#8) (hlen : s.length ≤ msgIoBufsize) :
    ¬ PrintsExactly s (handle screen (received buffer (putsMsg prior s))) := by
  intro h
  have hlength := congrArg List.length ((puts_prints screen hs hlen).symm.trans h.1)
  simp only [List.length_append, List.length_singleton] at hlength
  omega

/-- An empty screen, white on black. -/
def blankScreen : Screen := ⟨0, 0, 15#32, 0#32, fun _ => 0#16⟩

/-- One letter, on a stack of zeros. -/
theorem puts_never_exact_letter :
    ¬ PrintsExactly [0x41#8]
      (handle blankScreen (received (fun _ => 0#8) (putsMsg (fun _ => 0#8) [0x41#8]))) :=
  puts_never_exact blankScreen (fun _ => 0#8) (fun _ => 0#8) [0x41#8] (by decide) (by decide)

/-- The letter is followed by the NUL in `one_char`. -/
theorem puts_letter_and_nul :
    ¬ ∀ (screen : Screen) (prior buffer : MsgIo) (s : List (BitVec 8)), (∀ c ∈ s, c ≠ 0x00#8) →
      s.length ≤ msgIoBufsize →
        PrintsExactly s (handle screen (received buffer (putsMsg prior s))) := by
  intro h
  have hexact := h blankScreen (fun _ => 0#8) (fun _ => 0#8) [0x41#8] (by decide) (by decide)
  have hcalls := @puts_prints (fun _ => 0#8) (fun _ => 0#8) [0x41#8] blankScreen (by decide)
    (by decide)
  have hsame := hcalls.symm.trans hexact.1
  revert hsame
  decide

end Leoman
