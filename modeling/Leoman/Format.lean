import Leoman.Print

namespace Leoman.Print

open ByteMem ByteWriter

/-!
# What a format prints (`kernel/print.c`)

* `Conversion`, `Piece`, `Renders` — what is printed for a conversion, for a piece of a format, and
  for a format with its arguments;
* `At` — what holds between the pieces of a format, as long as there is room in the buffer;
* `kvformatLoop_piece`, `kvformatLoop_overrun` — one piece, with room for it and without;
* `kvformat_renders` — formatting is compositional;
* `kvformat_bounded_iff` — the calls that stay within the format and the buffer.
-/

/-- The characters that may follow a `%`. -/
def conversions : List (BitVec 8) := [0x25#8, 0x63#8, 0x64#8, 0x78#8, 0x73#8]

/-- What is printed for a `%` with this character behind it, and from which arguments.  A string is
    printed up to its NUL, and is no part of the buffer. -/
inductive Conversion (m : Mem) (inBuf : BitVec 32 → Prop) :
    BitVec 8 → List (BitVec 32) → List (BitVec 8) → Prop
  | percent : Conversion m inBuf 0x25#8 [] [0x25#8]
  | char (v : BitVec 32) : Conversion m inBuf 0x63#8 [v] [v.setWidth 8]
  | decimal (v : BitVec 32) : Conversion m inBuf 0x64#8 [v] (putdBytes v)
  | hex (v : BitVec 32) : Conversion m inBuf 0x78#8 [v] (puthdBytes v)
  | string (p : BitVec 32) {t : List (BitVec 8)} (ht : 0x00#8 ∉ t)
      (hst : Stored m p (t ++ [0x00#8])) (hapart : ∀ x, InRange x p (t.length + 1) → ¬ inBuf x) :
      Conversion m inBuf 0x73#8 [p] t
  | other {d : BitVec 8} (hd : d ≠ 0x00#8) (hd' : d ∉ conversions) : Conversion m inBuf d [] []

/-- A piece of a format, its arguments, and what is printed for it. -/
inductive Piece (m : Mem) (inBuf : BitVec 32 → Prop) :
    List (BitVec 8) → List (BitVec 32) → List (BitVec 8) → Prop
  | literal {c : BitVec 8} (hc : c ≠ 0x00#8) (hc' : c ≠ 0x25#8) : Piece m inBuf [c] [] [c]
  | conversion {d : BitVec 8} {as : List (BitVec 32)} {b : List (BitVec 8)}
      (h : Conversion m inBuf d as b) : Piece m inBuf [0x25#8, d] as b

/-- What is printed for a format and its arguments: the concatenation of what is printed for its
    pieces, in order.  There may be a `%` at the end that nothing follows. -/
inductive Renders (m : Mem) (inBuf : BitVec 32 → Prop) :
    List (BitVec 8) → List (BitVec 32) → List (BitVec 8) → Prop
  | nil : Renders m inBuf [] [] []
  | piece {g f b o : List (BitVec 8)} {as args : List (BitVec 32)} (hp : Piece m inBuf g as b)
      (h : Renders m inBuf f args o) : Renders m inBuf (g ++ f) (as ++ args) (b ++ o)
  | lone : Renders m inBuf [0x25#8] [] []

/-- Every `%` is followed by one of the conversions. -/
def WellFormed : List (BitVec 8) → Prop
  | [] => True
  | [c] => c ≠ 0x25#8
  | c :: d :: f => if c = 0x25#8 then d ∈ conversions ∧ WellFormed f else WellFormed (d :: f)

/-- The format ends with a `%` that nothing follows. -/
def EndsLone : List (BitVec 8) → Prop
  | [] => False
  | [c] => c = 0x25#8
  | c :: d :: f => if c = 0x25#8 then EndsLone f else EndsLone (d :: f)

/-- The format is in memory, with a NUL behind it, and is no part of the buffer. -/
structure FormatIn (m : Mem) (buf : BitVec 32) (size : Nat) (fmt : BitVec 32)
    (f : List (BitVec 8)) : Prop where
  stored : Stored m fmt (f ++ [0x00#8])
  apart : ∀ x, InRange x fmt (f.length + 1) → ¬ InRange x buf size

/-- The state behind the pieces `pre` of a format, for which these bytes have been printed. -/
structure At (m : Mem) (buf fmt : BitVec 32) (pre out : List (BitVec 8)) (args : List (BitVec 32))
    (s : Scan) : Prop where
  p : s.p = fmt + BitVec.ofNat 32 pre.length
  args : s.args = args
  filled : Filled m buf out s.out
  reads : ∀ x ∈ s.reads, InRange x fmt pre.length

section Format

variable {m : Mem} {buf fmt x : BitVec 32} {size rounds n : Nat} {pre f g o b out : List (BitVec 8)}
  {as args : List (BitVec 32)} {c d : BitVec 8} {s s' : Scan}

theorem WellFormed.not_endsLone (h : WellFormed f) : ¬ EndsLone f := by
  fun_induction WellFormed f with
  | case1 => exact id
  | case2 c => exact h
  | case3 d f ih =>
    rw [EndsLone, if_pos rfl]
    exact ih h.2
  | case4 c d f hc ih =>
    rw [EndsLone, if_neg hc]
    exact ih h

/-- A piece is not the end. -/
theorem Piece.endsLone_iff {inBuf : BitVec 32 → Prop} (hp : Piece m inBuf g as b) :
    EndsLone (g ++ f) ↔ EndsLone f := by
  cases hp with
  | literal hc hc' =>
    cases f with
    | nil => exact iff_of_false hc' id
    | cons d f =>
      show EndsLone (_ :: d :: f) ↔ _
      rw [EndsLone, if_neg hc']
  | @conversion d _ _ h =>
    show EndsLone (0x25#8 :: d :: f) ↔ _
    rw [EndsLone, if_pos rfl]

/-! ### One conversion -/

/-- `va_arg` takes the first argument. -/
theorem vaArg_cons {v : BitVec 32} (hargs : s.args = v :: args) :
    s.vaArg = some (v, { s with args := args }) := by
  rw [Scan.vaArg, hargs]

theorem convert_percent (hchar : s.char = 0x25#8) :
    convert rounds s = some { s with out := s.out.putAll [0x25#8] } := by
  rw [convert, if_pos hchar]
  rfl

theorem convert_char {v : BitVec 32} (hchar : s.char = 0x63#8) (hargs : s.args = v :: args) :
    convert rounds s = some { s with out := s.out.putAll [v.setWidth 8], args := args } := by
  rw [convert, hchar, if_neg (by decide), if_pos rfl, vaArg_cons hargs]
  rfl

theorem convert_decimal {v : BitVec 32} (hchar : s.char = 0x64#8) (hargs : s.args = v :: args) :
    convert rounds s = some { s with out := s.out.putAll (putdBytes v), args := args } := by
  rw [convert, hchar, if_neg (by decide), if_neg (by decide), if_pos rfl, vaArg_cons hargs,
    ← putd_eq]
  rfl

theorem convert_hex {v : BitVec 32} (hchar : s.char = 0x78#8) (hargs : s.args = v :: args) :
    convert rounds s = some { s with out := s.out.putAll (puthdBytes v), args := args } := by
  rw [convert, hchar, if_neg (by decide), if_neg (by decide), if_neg (by decide), if_pos rfl,
    vaArg_cons hargs, ← puthd_eq]
  rfl

theorem convert_string {p : BitVec 32} (hchar : s.char = 0x73#8) (hargs : s.args = p :: args) :
    convert rounds s
      = (puts rounds s.out p).map fun out => { s with out := out, args := args } := by
  rw [convert, hchar, if_neg (by decide), if_neg (by decide), if_neg (by decide),
    if_neg (by decide), if_pos rfl, vaArg_cons hargs]
  show (puts rounds s.out p).bind _ = _
  rw [Option.map_eq_bind]
  rfl

/-- A character that is none of the conversions prints nothing. -/
theorem convert_other (hd : s.char ∉ conversions) : convert rounds s = some s := by
  simp only [conversions, List.mem_cons, List.not_mem_nil, or_false, not_or] at hd
  obtain ⟨h₁, h₂, h₃, h₄, h₅⟩ := hd
  rw [convert, if_neg h₁, if_neg h₂, if_neg h₃, if_neg h₄, if_neg h₅]

/-- There is no argument left to convert. -/
theorem convert_none (hd : s.char ∈ conversions) (hne : s.char ≠ 0x25#8) (hargs : s.args = []) :
    convert rounds s = none := by
  have hnone : s.vaArg = none := by rw [Scan.vaArg, hargs]
  simp only [conversions, List.mem_cons, List.not_mem_nil, or_false] at hd
  rcases hd with hd | hd | hd | hd | hd
  · exact absurd hd hne
  all_goals
    rw [convert, hnone, hd]
    rfl

/-- Whatever a conversion is, it goes through `putch`. -/
theorem convert_cases (hrun : convert rounds s = some s') :
    s'.p = s.p ∧ s'.reads = s.reads ∧
      ((∃ bs, s'.out = s.out.putAll bs) ∨ ∃ p, puts rounds s.out p = some s'.out) := by
  by_cases hd : s.char ∈ conversions
  · by_cases hpercent : s.char = 0x25#8
    · rw [convert_percent hpercent, Option.some.injEq] at hrun
      subst hrun
      exact ⟨rfl, rfl, Or.inl ⟨_, rfl⟩⟩
    · cases hargs : s.args with
      | nil =>
        rw [convert_none hd hpercent hargs] at hrun
        exact nomatch hrun
      | cons v args =>
        simp only [conversions, List.mem_cons, List.not_mem_nil, or_false] at hd
        rcases hd with hd | hd | hd | hd | hd
        · exact absurd hd hpercent
        · rw [convert_char hd hargs, Option.some.injEq] at hrun
          subst hrun
          exact ⟨rfl, rfl, Or.inl ⟨_, rfl⟩⟩
        · rw [convert_decimal hd hargs, Option.some.injEq] at hrun
          subst hrun
          exact ⟨rfl, rfl, Or.inl ⟨_, rfl⟩⟩
        · rw [convert_hex hd hargs, Option.some.injEq] at hrun
          subst hrun
          exact ⟨rfl, rfl, Or.inl ⟨_, rfl⟩⟩
        · rw [convert_string hd hargs] at hrun
          obtain ⟨w, hputs, rfl⟩ := Option.map_eq_some_iff.mp hrun
          exact ⟨rfl, rfl, Or.inr ⟨v, hputs⟩⟩
  · rw [convert_other hd, Option.some.injEq] at hrun
    subst hrun
    exact ⟨rfl, rfl, Or.inl ⟨[], rfl⟩⟩

/-- **The conversion of a character.**  Its bytes go through `putch`; those of a string are copied
    from where it is. -/
theorem convert_eq (rounds : Nat) {inBuf : BitVec 32 → Prop} (h : Conversion m inBuf d as b)
    (hchar : s.char = d) (hargs : s.args = as ++ args) :
    convert rounds s = some { s with out := s.out.putAll b, args := args } ∨
      ∃ p, 0x00#8 ∉ b ∧ Stored m p (b ++ [0x00#8]) ∧
        (∀ x, InRange x p (b.length + 1) → ¬ inBuf x) ∧ convert rounds s
          = (puts rounds s.out p).map fun out => { s with out := out, args := args } := by
  cases h with
  | percent =>
    have hsame : s.args = args := hargs
    rw [convert_percent hchar, ← hsame]
    exact Or.inl rfl
  | char v => exact Or.inl (convert_char hchar hargs)
  | decimal v => exact Or.inl (convert_decimal hchar hargs)
  | hex v => exact Or.inl (convert_hex hchar hargs)
  | string p ht hst hapart => exact Or.inr ⟨p, ht, hst, hapart, convert_string hchar hargs⟩
  | other hd hd' =>
    have hsame : s.args = args := hargs
    rw [convert_other (hchar ▸ hd'), ← hsame]
    exact Or.inl rfl

/-- With room for them, the bytes are in the buffer, when there are enough rounds. -/
theorem convert_piece (rounds : Nat) (h : Conversion m (InRange · buf size) d as b)
    (hsize : size < 2 ^ 32) (hchar : s.char = d) (hargs : s.args = as ++ args)
    (hfilled : Filled m buf out s.out) (hroom : out.length + b.length ≤ size) :
    convert rounds s = some { s with out := s.out.putAll b, args := args } ∨
      (convert rounds s = none ∧ rounds ≤ b.length) := by
  obtain heq | ⟨p, ht, hst, hapart, heq⟩ := convert_eq rounds h hchar hargs
  · exact Or.inl heq
  · rw [heq, puts_eq hfilled (by omega) ht hst hapart hroom]
    split
    · exact Or.inl rfl
    · exact Or.inr ⟨rfl, by omega⟩

/-- Without room for them, the byte behind the buffer is written to. -/
theorem convert_overrun (h : Conversion m (InRange · buf size) d as b) (hsize : size < 2 ^ 32)
    (hchar : s.char = d) (hargs : s.args = as ++ args) (hfilled : Filled m buf out s.out)
    (hle : out.length ≤ size) (hmore : size < out.length + b.length)
    (hrun : convert rounds s = some s') : buf + BitVec.ofNat 32 size ∈ s'.out.written := by
  obtain heq | ⟨p, ht, hst, hapart, heq⟩ := convert_eq rounds h hchar hargs
  · rw [heq, Option.some.injEq] at hrun
    rw [← hrun]
    exact hfilled.overrun hsize hle hmore
  · rw [heq] at hrun
    obtain ⟨w, hputs, rfl⟩ := Option.map_eq_some_iff.mp hrun
    exact puts_overrun hfilled hsize ht hst hapart hle hmore hputs

/-- What was written to stays on record. -/
theorem convert_written (hrun : convert rounds s = some s') (hx : x ∈ s.out.written) :
    x ∈ s'.out.written := by
  obtain ⟨-, -, ⟨bs, hout⟩ | ⟨p, hputs⟩⟩ := convert_cases hrun
  · rw [hout]
    exact Writer.written_putAll hx
  · exact puts_written hputs hx

/-- What was read and written to stays on record, and so does what is read next. -/
theorem kvformatLoop_records (hrun : kvformatLoop rounds n s = some s') :
    (∀ x ∈ s.reads, x ∈ s'.reads) ∧ s.p ∈ s'.reads ∧ ∀ x ∈ s.out.written, x ∈ s'.out.written := by
  induction n generalizing s with
  | zero => exact nomatch hrun
  | succ n ih =>
    rw [kvformatLoop] at hrun
    split at hrun
    · cases hrun
      exact ⟨fun x hx => List.mem_append_left _ hx,
        List.mem_append_right _ (List.mem_singleton.mpr rfl),
        fun x hx => List.mem_append_left _ hx⟩
    · split at hrun
      · obtain ⟨t, hconv, hloop⟩ := Option.bind_eq_some_iff.mp hrun
        obtain ⟨hreads, -, hwritten⟩ := ih hloop
        obtain ⟨-, hsame, -⟩ := convert_cases hconv
        have hlook : ∀ x, x ∈ s.reads ∨ x = s.p → x ∈ s'.reads := by
          intro x hx
          refine hreads x ?_
          show x ∈ t.reads
          rw [hsame]
          refine List.mem_append_left _ ?_
          exact List.mem_append.mpr (hx.imp_right List.mem_singleton.mpr)
        exact ⟨fun x hx => hlook x (Or.inl hx), hlook _ (Or.inr rfl),
          fun x hx => hwritten x (show x ∈ t.out.written from convert_written hconv hx)⟩
      · obtain ⟨hreads, -, hwritten⟩ := ih hrun
        exact ⟨fun x hx => hreads x (List.mem_append_left _ hx),
          hreads _ (List.mem_append_right _ (List.mem_singleton.mpr rfl)),
          fun x hx => hwritten x (List.mem_append_left _ hx)⟩

/-! ### One piece -/

/-- A format that leaves room for a buffer. -/
theorem FormatIn.length_lt (hF : FormatIn m buf size fmt f) (hsize : 1 ≤ size) :
    f.length + 1 < 2 ^ 32 := by
  by_contra hlong
  refine hF.apart buf ?_ (by rw [InRange, BitVec.sub_self]; exact hsize)
  have := (buf - fmt).isLt
  unfold InRange
  omega

/-- The character at `p` is that of the format. -/
theorem At.char_eq (h : At m buf fmt pre out args s) (hF : FormatIn m buf size fmt (pre ++ f))
    (hsize : 1 ≤ size) (hle : out.length ≤ size) (hc : (f ++ [0x00#8])[0]? = some c) :
    s.char = c := by
  have hlen := hF.length_lt hsize
  have hbyte : (pre ++ f ++ [0x00#8])[pre.length]? = some c := by
    rw [List.append_assoc, List.getElem?_append_right (Nat.le_refl _), Nat.sub_self]
    exact hc
  have hin : InRange s.p fmt ((pre ++ f).length + 1) := by
    rw [h.p]
    rw [List.length_append] at hlen ⊢
    exact inRange_add (by omega) (by omega)
  have hmem : s.out.mem s.p = m s.p := h.filled.mem_eq hle (hF.apart _ hin)
  rw [Scan.char, hmem, h.p]
  exact hF.stored _ _ hbyte

/-- A character further. -/
theorem At.next (h : At m buf fmt pre out args s) (hlen : pre.length < 2 ^ 32) (c : BitVec 8) :
    At m buf fmt (pre ++ [c]) out args s.look.next where
  p := by
    show s.p + 1#32 = _
    rw [h.p, List.length_append, BitVec.ofNat_add, BitVec.add_assoc]
    rfl
  args := h.args
  filled := h.filled
  reads x hx := by
    rw [List.length_append, List.length_singleton]
    obtain hx | hx := List.mem_append.mp hx
    · exact Nat.lt_succ_of_lt (h.reads x hx)
    · rw [List.mem_singleton.mp hx, h.p]
      exact inRange_add (by omega) hlen

/-- Something printed. -/
theorem At.print (h : At m buf fmt pre out args s) {out' : List (BitVec 8)} {w : Writer}
    (hw : Filled m buf out' w) (args' : List (BitVec 32)) :
    At m buf fmt pre out' args' { s with out := w, args := args' } :=
  ⟨h.p, rfl, hw, h.reads⟩

/-- What the loop does at a character that is no `%`. -/
theorem kvformatLoop_literal (hc : s.char ≠ 0x00#8) (hc' : s.char ≠ 0x25#8) :
    kvformatLoop rounds (n + 1) s
      = kvformatLoop rounds n { s with out := s.out.put s.char }.look.next := by
  rw [kvformatLoop, if_neg hc, if_neg hc']
  rfl

/-- What the loop does at a `%`. -/
theorem kvformatLoop_percent (hc : s.char = 0x25#8) :
    kvformatLoop rounds (n + 1) s
      = (convert rounds s.look.next.look).bind fun t => kvformatLoop rounds n t.next := by
  rw [kvformatLoop, hc, if_neg (by decide), if_pos rfl]
  rfl

/-- **Step lemma.**  A piece that there is room for. -/
theorem kvformatLoop_piece (rounds n : Nat) (hp : Piece m (InRange · buf size) g as b)
    (hF : FormatIn m buf size fmt (pre ++ (g ++ f))) (hsize : 1 ≤ size) (hsize' : size < 2 ^ 32)
    (h : At m buf fmt pre out (as ++ args) s) (hroom : out.length + b.length ≤ size) :
    (∃ s₁, At m buf fmt (pre ++ g) (out ++ b) args s₁ ∧
      kvformatLoop rounds (n + 1) s = kvformatLoop rounds n s₁) ∨
    (kvformatLoop rounds (n + 1) s = none ∧ rounds ≤ b.length) := by
  have hlen := hF.length_lt hsize
  simp only [List.length_append] at hlen
  cases hp with
  | @literal c hc hc' =>
    have hchar : s.char = c := h.char_eq hF hsize (by omega) rfl
    have hput : Filled m buf (out ++ [c]) (s.out.put c) := h.filled.put (by omega) c
    have hargs : s.args = args := h.args
    have hnext := (h.print hput args).next (by omega) c
    refine Or.inl ⟨_, hnext, ?_⟩
    rw [kvformatLoop_literal (hchar ▸ hc) (hchar ▸ hc'), hchar, ← hargs]
  | @conversion d _ _ hconv =>
    have hchar : s.char = 0x25#8 := h.char_eq hF hsize (by omega) rfl
    have hpercent := h.next (by omega) 0x25#8
    have hF' : FormatIn m buf size fmt (pre ++ [0x25#8] ++ (d :: f)) := by
      rw [List.append_assoc]
      exact hF
    have hchar' : s.look.next.look.char = d := hpercent.char_eq hF' hsize (by omega) rfl
    rw [kvformatLoop_percent hchar]
    have hroom' : out.length + b.length ≤ 2 ^ 32 := by omega
    have hone : (pre ++ [0x25#8]).length < 2 ^ 32 := by
      rw [List.length_append, List.length_singleton]
      omega
    obtain heq | ⟨hnone, hfew⟩ := convert_piece rounds hconv hsize' hchar' h.args
      h.filled hroom
    · rw [heq]
      have hnext := (hpercent.print (h.filled.putAll hroom') args).next hone d
      rw [List.append_assoc] at hnext
      exact Or.inl ⟨_, hnext, rfl⟩
    · rw [hnone]
      exact Or.inr ⟨rfl, hfew⟩

/-- A piece that there is no room for. -/
theorem kvformatLoop_overrun (hp : Piece m (InRange · buf size) g as b)
    (hF : FormatIn m buf size fmt (pre ++ (g ++ f))) (hsize : 1 ≤ size) (hsize' : size < 2 ^ 32)
    (h : At m buf fmt pre out (as ++ args) s) (hle : out.length ≤ size)
    (hmore : size < out.length + b.length) (hrun : kvformatLoop rounds (n + 1) s = some s') :
    buf + BitVec.ofNat 32 size ∈ s'.out.written := by
  have hlen := hF.length_lt hsize
  simp only [List.length_append] at hlen
  have hover := h.filled.overrun hsize' hle hmore
  cases hp with
  | @literal c hc hc' =>
    have hchar : s.char = c := h.char_eq hF hsize hle rfl
    rw [kvformatLoop_literal (hchar ▸ hc) (hchar ▸ hc'), hchar] at hrun
    exact (kvformatLoop_records hrun).2.2 _ hover
  | @conversion d _ _ hconv =>
    have hchar : s.char = 0x25#8 := h.char_eq hF hsize hle rfl
    have hF' : FormatIn m buf size fmt (pre ++ [0x25#8] ++ (d :: f)) := by
      rw [List.append_assoc]
      exact hF
    have hchar' : s.look.next.look.char = d :=
      (h.next (by omega) 0x25#8).char_eq hF' hsize hle rfl
    rw [kvformatLoop_percent hchar] at hrun
    obtain ⟨t, ht, hloop⟩ := Option.bind_eq_some_iff.mp hrun
    refine (kvformatLoop_records hloop).2.2 _ (?_ : _ ∈ t.out.written)
    exact convert_overrun hconv hsize' hchar' h.args h.filled hle hmore ht

/-! ### A whole format -/

/-- The end of a run: the bytes and a NUL are in the buffer, and nothing else was written to; the
    arguments are used up; and no more than the format was read. -/
structure Printed (m : Mem) (buf fmt : BitVec 32) (f o : List (BitVec 8)) (s : Scan) : Prop where
  stored : Stored s.out.mem buf (o ++ [0x00#8])
  kept : ∀ x, ¬ InRange x buf (o.length + 1) → s.out.mem x = m x
  written : ∀ x, x ∈ s.out.written ↔ InRange x buf (o.length + 1)
  args : s.args = []
  reads : ∀ x ∈ s.reads, InRange x fmt (f.length + 1)

theorem Piece.length_pos {inBuf : BitVec 32 → Prop} (hp : Piece m inBuf g as b) :
    1 ≤ g.length := by
  cases hp with
  | literal => exact Nat.le_refl 1
  | conversion => exact Nat.le_succ 1

/-- **Run lemma.**  The rest of a format, with room enough for all of it. -/
theorem kvformatLoop_prints (h : Renders m (InRange · buf size) f args o) (hlone : ¬ EndsLone f)
    (hF : FormatIn m buf size fmt (pre ++ f)) (hsize' : size < 2 ^ 32)
    (hat : At m buf fmt pre out args s) (hroom : out.length + o.length + 1 ≤ size)
    (hr : o.length < rounds) (hn : f.length < n) :
    ∃ s', kvformatLoop rounds n s = some s' ∧
      Printed m buf fmt (pre ++ f) (out ++ o) s' := by
  induction h generalizing pre out s n with
  | nil =>
    obtain ⟨n, rfl⟩ : ∃ k, n = k + 1 := Nat.exists_eq_succ_of_ne_zero (by omega)
    have hchar : s.char = 0x00#8 := hat.char_eq hF (by omega) (by omega) rfl
    have hend := hat.filled.put (by omega) 0x00#8
    have hlen := hF.length_lt (by omega)
    have hreads := (hat.next (by rw [List.append_nil] at hlen; omega) 0x00#8).reads
    refine ⟨{ s.look with out := s.out.store 0x00#8 }, ?_, ?_⟩
    · rw [kvformatLoop, if_pos hchar]
    · simp only [List.append_nil]
      simp only [List.length_append, List.length_singleton] at hreads
      refine ⟨hend.stored, fun x hx => hend.kept x ?_, fun x => ?_, hat.args, hreads⟩
      · rwa [List.length_append]
      · have := hend.written x
        rwa [List.length_append] at this
  | @piece g f b o as args hp h ih =>
    obtain ⟨n, rfl⟩ : ∃ k, n = k + 1 := Nat.exists_eq_succ_of_ne_zero (by omega)
    have hpos := hp.length_pos
    rw [List.length_append] at hroom hr hn
    obtain ⟨s₁, hat₁, heq⟩ | ⟨-, hfew⟩ := kvformatLoop_piece rounds n hp hF
      (by omega) hsize' hat (by omega)
    · rw [hp.endsLone_iff] at hlone
      rw [← List.append_assoc] at hF
      have hrest := ih hlone hF hat₁ (by rw [List.length_append]; omega) (by omega)
        (show f.length < n by omega)
      rw [heq, ← List.append_assoc, ← List.append_assoc]
      exact hrest
    · omega
  | lone => exact absurd (show EndsLone [0x25#8] from rfl) hlone

/-- **Run lemma.**  Otherwise the byte behind the buffer is written to, or the byte behind the NUL
    of the format is read. -/
theorem kvformatLoop_strays (h : Renders m (InRange · buf size) f args o)
    (hstray : EndsLone f ∨ size < out.length + o.length + 1)
    (hF : FormatIn m buf size fmt (pre ++ f)) (hsize : 1 ≤ size) (hsize' : size < 2 ^ 32)
    (hat : At m buf fmt pre out args s) (hle : out.length ≤ size)
    (hrun : kvformatLoop rounds n s = some s') :
    buf + BitVec.ofNat 32 size ∈ s'.out.written ∨
      fmt + BitVec.ofNat 32 ((pre ++ f).length + 1) ∈ s'.reads := by
  cases n with
  | zero => exact nomatch hrun
  | succ n =>
    induction h generalizing pre out s n with
    | nil =>
      have hfull : out.length = size := by
        rw [List.length_nil] at hstray
        have := hstray.resolve_left id
        omega
      have hchar : s.char = 0x00#8 := hat.char_eq hF hsize hle rfl
      rw [kvformatLoop, if_pos hchar, Option.some.injEq] at hrun
      subst hrun
      refine Or.inl (List.mem_append_right _ ?_)
      rw [List.mem_singleton, hat.filled.ptr, hfull]
    | @piece g f b o as args hp h ih =>
      by_cases hmore : size < out.length + b.length
      · exact Or.inl (kvformatLoop_overrun hp hF hsize hsize' hat hle hmore hrun)
      · obtain ⟨s₁, hat₁, heq⟩ | ⟨hnone, -⟩ := kvformatLoop_piece rounds n hp hF
          hsize hsize' hat (by omega)
        · rw [heq] at hrun
          have hlen : (out ++ b).length = out.length + b.length := List.length_append
          have hstray' : EndsLone f ∨ size < (out ++ b).length + o.length + 1 := by
            rw [hp.endsLone_iff, List.length_append] at hstray
            refine hstray.imp_right fun hlt => ?_
            omega
          cases n with
          | zero => exact nomatch hrun
          | succ n =>
            rw [← List.append_assoc] at hF ⊢
            exact ih hstray' hF hat₁ (by omega) n hrun
        · rw [hnone] at hrun
          exact nomatch hrun
    | lone =>
      have hlen := hF.length_lt hsize
      rw [List.length_append, List.length_singleton] at hlen ⊢
      have hchar : s.char = 0x25#8 := hat.char_eq hF hsize hle rfl
      have hpercent := hat.next (by omega) 0x25#8
      have hF' : FormatIn m buf size fmt (pre ++ [0x25#8] ++ []) := by
        rw [List.append_nil]
        exact hF
      have hnul : s.look.next.look.char = 0x00#8 := hpercent.char_eq hF' hsize hle rfl
      -- the NUL is taken for a conversion, and the loop goes on behind it
      rw [kvformatLoop_percent hchar, convert_other (by rw [hnul]; decide)] at hrun
      have hlast := (kvformatLoop_records hrun).2.1
      have hbehind : s.look.next.look.next.p = fmt + BitVec.ofNat 32 (pre.length + 1 + 1) := by
        show s.p + 1#32 + 1#32 = _
        rw [hat.p, BitVec.ofNat_add, BitVec.ofNat_add, BitVec.add_assoc, BitVec.add_assoc,
          BitVec.add_assoc]
      rw [hbehind] at hlast
      exact Or.inr hlast

/-- The state at the start. -/
theorem At.start (m : Mem) (buf fmt : BitVec 32) (args : List (BitVec 32)) :
    At m buf fmt [] [] args ⟨⟨m, buf, []⟩, fmt, args, []⟩ :=
  ⟨(BitVec.add_zero fmt).symm, rfl, Filled.start m buf, fun _ h => nomatch h⟩

/-- **Formatting is compositional.**  In a buffer with room for it there is, in the end, what the
    pieces of the format print, in order, and a NUL; the arguments are used up, and nothing else was
    written to. -/
theorem kvformat_renders (m : Mem) (buf size fmt : BitVec 32) (f o : List (BitVec 8))
    (args : List (BitVec 32)) (hwell : WellFormed f)
    (hrenders : Renders m (InRange · buf size.toNat) f args o)
    (hF : FormatIn m buf size.toNat fmt f) (hroom : o.length + 1 ≤ size.toNat) (rounds : Nat)
    (hrounds : f.length + o.length < rounds) :
    ∃ s, kvformat rounds m buf size fmt args = some s ∧ Printed m buf fmt f o s :=
  kvformatLoop_prints hrenders hwell.not_endsLone hF size.isLt (At.start m buf fmt args)
    (by rw [List.length_nil]; omega) (by omega) (by omega)

/-- The call returns, reads nothing of the format behind its NUL, and writes to nothing but the
    buffer. -/
def Bounded (run : Nat → Option Scan) (buf : BitVec 32) (size : Nat) (fmt : BitVec 32)
    (f : List (BitVec 8)) : Prop :=
  ∃ rounds s, run rounds = some s ∧ (∀ x ∈ s.reads, InRange x fmt (f.length + 1)) ∧
    ∀ x ∈ s.out.written, InRange x buf size

/-- The calls of `kvformat` that stay within the format and the buffer. -/
theorem kvformat_stays_iff {size : BitVec 32} (hsize : 1 ≤ size.toNat)
    (hrenders : Renders m (InRange · buf size.toNat) f args o)
    (hF : FormatIn m buf size.toNat fmt f) :
    Bounded (fun rounds => kvformat rounds m buf size fmt args) buf size.toNat fmt f ↔
      ¬ EndsLone f ∧ o.length + 1 ≤ size.toNat := by
  constructor
  · rintro ⟨rounds, s, hrun, hreads, hwritten⟩
    by_contra hnot
    have hstray : EndsLone f ∨ size.toNat < ([] : List (BitVec 8)).length + o.length + 1 := by
      rw [List.length_nil]
      by_cases hlone : EndsLone f
      · exact Or.inl hlone
      · have := not_and.mp hnot hlone
        exact Or.inr (by omega)
    have hlen := hF.length_lt hsize
    obtain hw | hr := kvformatLoop_strays hrenders hstray hF hsize size.isLt
      (At.start m buf fmt args) (Nat.zero_le _) hrun
    · have hin := hwritten _ hw
      rw [InRange, BitVec.add_comm, BitVec.add_sub_cancel, BitVec.toNat_ofNat,
        Nat.mod_eq_of_lt size.isLt] at hin
      omega
    · have hin := hreads _ hr
      rw [InRange, BitVec.add_comm, BitVec.add_sub_cancel, BitVec.toNat_ofNat, List.nil_append,
        Nat.mod_eq_of_lt hlen] at hin
      omega
  · rintro ⟨hlone, hroom⟩
    have hrun : ∃ s, kvformat (f.length + o.length + 1) m buf size fmt args = some s ∧
        Printed m buf fmt f o s :=
      kvformatLoop_prints hrenders hlone hF size.isLt (At.start m buf fmt args)
        (by rw [List.length_nil]; omega) (by omega) (by omega)
    obtain ⟨s, hs, hprinted⟩ := hrun
    refine ⟨_, s, hs, hprinted.reads, fun x hx => ?_⟩
    have hin := (hprinted.written x).mp hx
    unfold InRange at *
    omega

/-! ### `kprintf` -/

/-- The memory outside the buffer is all that matters. -/
theorem Renders.congr {inBuf : BitVec 32 → Prop} {m' : Mem} (h : Renders m inBuf f args o)
    (hm : ∀ x, ¬ inBuf x → m' x = m x) : Renders m' inBuf f args o := by
  induction h with
  | nil => exact .nil
  | lone => exact .lone
  | @piece g f b o as args hp _ ih =>
    refine .piece ?_ ih
    cases hp with
    | literal hc hc' => exact .literal hc hc'
    | conversion hconv =>
      refine .conversion ?_
      cases hconv with
      | percent => exact .percent
      | char v => exact .char v
      | decimal v => exact .decimal v
      | hex v => exact .hex v
      | other hd hd' => exact .other hd hd'
      | @string p t ht hst hapart =>
        refine .string p ht (hst.congr fun x hx => hm x (hapart x ?_)) hapart
        rwa [List.length_append] at hx

theorem FormatIn.congr {m' : Mem} (hF : FormatIn m buf size fmt f)
    (hm : ∀ x, ¬ InRange x buf size → m' x = m x) : FormatIn m' buf size fmt f := by
  refine ⟨hF.stored.congr fun x hx => hm x (hF.apart x ?_), hF.apart⟩
  rwa [List.length_append] at hx

/-- **Formatting is bounded** exactly when the format does not end with a lone `%` and what it
    prints fits in the buffer, with the NUL; and so are the calls of `kprintf`, whose buffer has
    `KERNEL_MAX_PRINT_SIZE` bytes. -/
theorem kvformat_bounded_iff (m : Mem) (buf size fmt : BitVec 32) (f o : List (BitVec 8))
    (args : List (BitVec 32)) (hsize : 1 ≤ size.toNat)
    (hrenders : Renders m (InRange · buf size.toNat) f args o)
    (hF : FormatIn m buf size.toNat fmt f) :
    (Bounded (fun rounds => kvformat rounds m buf size fmt args) buf size.toNat fmt f ↔
      ¬ EndsLone f ∧ o.length + 1 ≤ size.toNat) ∧
    (size = kernelMaxPrintSize →
      (Bounded (fun rounds => kprintf rounds m buf fmt args) buf size.toNat fmt f ↔
        ¬ EndsLone f ∧ o.length + 1 ≤ kernelMaxPrintSize.toNat)) := by
  refine ⟨kvformat_stays_iff hsize hrenders hF, ?_⟩
  rintro rfl
  have hm : ∀ x, ¬ InRange x buf kernelMaxPrintSize.toNat → memsetBuf m buf x = m x :=
    fun x hx => if_neg hx
  exact kvformat_stays_iff hsize (hrenders.congr hm) (hF.congr hm)

end Format

/-! ### Some formats -/

/-- A format at 0x1000; the rest of the memory is zero. -/
def formatMemory (f : List (BitVec 8)) : Mem := fun x => f.getD (x - 0x1000#32).toNat 0x00#8

theorem formatIn_formatMemory {f : List (BitVec 8)} (hlen : f.length ≤ 256) :
    FormatIn (formatMemory f) 0x2000#32 256 0x1000#32 f where
  stored := by
    intro i b hb
    have hi := (List.getElem?_eq_some_iff.mp hb).1
    rw [List.length_append, List.length_singleton] at hi
    have hplace : (0x1000#32 + BitVec.ofNat 32 i - 0x1000#32).toNat = i := by bv_omega
    rw [formatMemory, hplace, List.getD_eq_getElem?_getD]
    by_cases hlt : i < f.length
    · rw [List.getElem?_append_left hlt] at hb
      rw [hb]
      rfl
    · rw [List.getElem?_append_right (by omega), show i - f.length = 0 by omega] at hb
      rw [List.getElem?_eq_none (by omega)]
      exact Option.some.inj hb
  apart x hx hx' := by
    unfold InRange at hx hx'
    bv_omega

/-- `A%c%x%%`. -/
def smallFormat : List (BitVec 8) := [0x41#8, 0x25#8, 0x63#8, 0x25#8, 0x78#8, 0x25#8, 0x25#8]

theorem renders_smallFormat (m : Mem) (inBuf : BitVec 32 → Prop) :
    Renders m inBuf smallFormat [0x42#32, 0xbeef#32]
      (0x41#8 :: 0x42#8 :: (puthdBytes 0xbeef#32 ++ [0x25#8])) :=
  .piece (.literal (by decide) (by decide)) (.piece (.conversion (.char 0x42#32))
    (.piece (.conversion (.hex 0xbeef#32)) (.piece (.conversion .percent) .nil)))

/-- It prints `AB0000beef%`. -/
theorem kvformat_renders_small :
    ∃ s, kvformat 19 (formatMemory smallFormat) 0x2000#32 256#32 0x1000#32 [0x42#32, 0xbeef#32]
        = some s ∧
      Printed (formatMemory smallFormat) 0x2000#32 0x1000#32 smallFormat
        (0x41#8 :: 0x42#8 :: (puthdBytes 0xbeef#32 ++ [0x25#8])) s :=
  kvformat_renders _ _ _ _ _ _ _ (by simp [smallFormat, WellFormed, conversions])
    (renders_smallFormat _ _) (formatIn_formatMemory (by decide)) (by decide) 19 (by decide)

/-- It stays within the format and the buffer. -/
theorem kvformat_bounded_iff_small :
    Bounded (fun rounds => kvformat rounds (formatMemory smallFormat) 0x2000#32 256#32 0x1000#32
        [0x42#32, 0xbeef#32]) 0x2000#32 256 0x1000#32 smallFormat ∧
      Bounded (fun rounds => kprintf rounds (formatMemory smallFormat) 0x2000#32 0x1000#32
        [0x42#32, 0xbeef#32]) 0x2000#32 256 0x1000#32 smallFormat := by
  obtain ⟨hformat, hprint⟩ := kvformat_bounded_iff _ _ 256#32 _ _ _ _ (by decide)
    (renders_smallFormat _ _) (formatIn_formatMemory (by decide))
  have hlone : ¬ EndsLone smallFormat := by simp [smallFormat, EndsLone]
  exact ⟨hformat.mpr ⟨hlone, by decide⟩, (hprint rfl).mpr ⟨hlone, by decide⟩⟩

/-- A format of letters prints itself. -/
theorem renders_letters (m : Mem) (inBuf : BitVec 32 → Prop) (n : Nat) :
    Renders m inBuf (List.replicate n 0x41#8) [] (List.replicate n 0x41#8) := by
  induction n with
  | zero => exact .nil
  | succ n ih =>
    have hletter : Piece m inBuf [0x41#8] [] [0x41#8] := .literal (by decide) (by decide)
    exact .piece hletter ih

/-- **A lone `%`, and 256 letters.**  The one is read beyond its NUL; the NUL of the others is
    written behind the buffer of `kprintf`. -/
theorem kvformat_strays :
    ¬ Bounded (fun rounds => kvformat rounds (formatMemory [0x25#8]) 0x2000#32 256#32 0x1000#32 [])
        0x2000#32 256 0x1000#32 [0x25#8] ∧
      ¬ Bounded (fun rounds => kprintf rounds (formatMemory (List.replicate 256 0x41#8)) 0x2000#32
          0x1000#32 []) 0x2000#32 256 0x1000#32 (List.replicate 256 0x41#8) := by
  constructor
  · intro h
    have hsize : 1 ≤ (256#32 : BitVec 32).toNat := by decide
    have hstays := (kvformat_stays_iff hsize .lone (formatIn_formatMemory (by decide))).mp h
    exact hstays.1 rfl
  · intro h
    have hm : ∀ x, ¬ InRange x 0x2000#32 256 →
        memsetBuf (formatMemory (List.replicate 256 0x41#8)) 0x2000#32 x
          = formatMemory (List.replicate 256 0x41#8) x := fun x hx => if_neg hx
    have hF := (formatIn_formatMemory (f := List.replicate 256 0x41#8)
      (by rw [List.length_replicate])).congr hm
    have hsize : 1 ≤ kernelMaxPrintSize.toNat := by decide
    have hstays : _ ∧ (List.replicate 256 0x41#8).length + 1 ≤ 256 :=
      (kvformat_stays_iff hsize (renders_letters _ _ 256) hF).mp h
    rw [List.length_replicate] at hstays
    omega

end Leoman.Print
