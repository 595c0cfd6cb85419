import Leoman.Lib.Runs
import Mathlib.Data.List.Basic
import Mathlib.Data.List.Pairwise

namespace Leoman.Keyboard

open Leoman.Runs

/-!
# The keyboard server (`servers/kbd.c`)

The server answers `MSG_GETC` with the next key.  Its interrupt handler runs in its address
space, between any two steps of the server's loop, and the two share the variables
`_last_scancode` and `_key_pressed`.  The state also records the make codes that arrived, in
order, and for each `MSG_GETC` which of them it returned.

* `Lost` — no way of going on returns the make code;
* `Tracks` — what holds however interrupts fall; with it no make code is returned twice;
* `keys_kept` — when no make code arrives between the server's read of `_last_scancode` and
  its clearing of `_key_pressed`, only a make code that a later one has replaced is lost;
* `arrival_before_clear_lost` — a make code that does arrive there is lost for good.
-/

/-! ### The server -/

/-- `MSG_GETC`. -/
def msgGetc : BitVec 32 := 0#32

/-- `KEY_LSHIFT`. -/
def keyLshift : BitVec 8 := 0x2a#8

/-- `KEY_RSHIFT`. -/
def keyRshift : BitVec 8 := 0x36#8

/-- `RELEASED(key)`. -/
def released (key : BitVec 8) : BitVec 8 := key ||| 0x80#8

/-- The first column of `layout`, the only one the server reads. -/
def layout : List (BitVec 8) :=
  [0x00#8, 0x1b#8, 0x31#8, 0x32#8, 0x33#8, 0x34#8, 0x35#8, 0x36#8, 0x37#8, 0x38#8,
   0x39#8, 0x30#8, 0x5b#8, 0x5d#8, 0x08#8, 0x09#8, 0x27#8, 0x2c#8, 0x2e#8, 0x70#8,
   0x79#8, 0x66#8, 0x67#8, 0x63#8, 0x72#8, 0x6c#8, 0x2f#8, 0x3d#8, 0x0a#8, 0x00#8,
   0x61#8, 0x6f#8, 0x65#8, 0x75#8, 0x69#8, 0x64#8, 0x68#8, 0x74#8, 0x6e#8, 0x73#8,
   0x2d#8, 0x60#8, 0x00#8, 0x5c#8, 0x3b#8, 0x71#8, 0x6a#8, 0x6b#8, 0x78#8, 0x62#8,
   0x6d#8, 0x77#8, 0x76#8, 0x7a#8, 0x00#8, 0x00#8, 0x00#8, 0x20#8, 0x00#8, 0x00#8]

/-- `layout[scancode][0]`.  The table is shorter than the range of make codes; `beyond` is the
    memory that follows it. -/
def layoutAt (beyond : Nat → BitVec 8) (scancode : BitVec 8) : BitVec 8 :=
  layout.getD scancode.toNat (beyond scancode.toNat)

/-- The next step of the server's loop. -/
inductive Point where
  /-- Waiting in `ipc_recv`. -/
  | recv
  /-- `while (!_key_pressed)`. -/
  | wait
  /-- `reply = layout[_last_scancode][0]`. -/
  | read
  /-- `_key_pressed = false`. -/
  | clear
  /-- `ipc_reply`. -/
  | reply
deriving DecidableEq, Repr

/-- The variables of the server, with a record of the make codes so far and of those that were
    returned: which one it was, and its scancode as the server read it. -/
structure Kbd where
  lastScancode : BitVec 8
  keyPressed : Bool
  isPressedShift : Bool
  point : Point
  reply : BitVec 32
  arrivals : List (BitVec 8)
  returned : List (Nat × BitVec 8)
deriving DecidableEq, Repr

/-- `kbd_irq_handler` on the byte `kbd_get_scancode` has read from the controller.  It runs
    with interrupts disabled. -/
def kbdIrqHandler (s : Kbd) (scancode : BitVec 8) : Kbd :=
  let s := if scancode = keyLshift ∨ scancode = keyRshift then { s with isPressedShift := true }
    else s
  let s := if scancode = released keyLshift ∨ scancode = released keyRshift then
      { s with isPressedShift := false }
    else s
  if scancode &&& 0x80#8 = 0#8 then
    { s with lastScancode := scancode
             keyPressed := true
             arrivals := s.arrivals ++ [scancode] }
  else s

variable (beyond : Nat → BitVec 8)

/-- One step of the server's loop.  `type` is the type of the message, should the server be
    waiting for one; every type but `MSG_GETC` is answered with the `reply` of the last time. -/
def serve (s : Kbd) (type : BitVec 32) : Kbd :=
  match s.point with
  | .recv => { s with point := if type = msgGetc then .wait else .reply }
  | .wait => if s.keyPressed then { s with point := .read } else s
  | .read =>
    { s with reply := (layoutAt beyond s.lastScancode).setWidth 32
             returned := s.returned ++ [(s.arrivals.length - 1, s.lastScancode)]
             point := .clear }
  | .clear => { s with keyPressed := false, point := .reply }
  | .reply => { s with point := .recv }

/-- What happens next. -/
inductive Event where
  | irq (scancode : BitVec 8)
  | server (type : BitVec 32)
deriving DecidableEq, Repr

/-- The state after an event. -/
def Kbd.after (s : Kbd) : Event → Kbd
  | .irq scancode => kbdIrqHandler s scancode
  | .server type => serve beyond s type

/-- The events a run may contain: any, or those that meet a condition. -/
def Step (ok : Kbd → Event → Prop) (s : Kbd) (e : Event) (s' : Kbd) : Prop :=
  ok s e ∧ s' = s.after beyond e

/-- No condition. -/
def anyEvent (_ : Kbd) (_ : Event) : Prop := True

/-- No make code arrives between the server's read of `_last_scancode` and its clearing of
    `_key_pressed`. -/
def NotBeforeClear (s : Kbd) : Event → Prop
  | .irq scancode => s.point = .clear → scancode &&& 0x80#8 ≠ 0#8
  | .server _ => True

instance (s : Kbd) : ∀ e, Decidable (NotBeforeClear s e)
  | .irq _ => inferInstanceAs (Decidable (_ → _))
  | .server _ => isTrue trivial

/-- The server is about to wait for its first message, and no key has been pressed. -/
def Start (s : Kbd) : Prop :=
  s.point = .recv ∧ s.keyPressed = false ∧ s.arrivals = [] ∧ s.returned = []

/-- Make code number `n` has been returned by a `MSG_GETC`. -/
def Kbd.Returned (s : Kbd) (n : Nat) : Prop := n ∈ s.returned.map Prod.fst

/-- Make code number `n` has arrived, and however things go on no `MSG_GETC` returns it. -/
def Lost (s : Kbd) (n : Nat) : Prop :=
  n < s.arrivals.length ∧ ∀ tr t, Run (Step beyond anyEvent) s tr t → ¬ t.Returned n

variable {beyond} {ok : Kbd → Event → Prop} {s₀ s : Kbd} {tr : List Event}

/-! ### What an interrupt does -/

/-- A break code touches none of the variables the server reads. -/
theorem irq_break {scancode : BitVec 8} (h : scancode &&& 0x80#8 ≠ 0#8) :
    ∃ shift, kbdIrqHandler s scancode = { s with isPressedShift := shift } := by
  unfold kbdIrqHandler
  simp only [if_neg h]
  (repeat' split) <;> exact ⟨_, rfl⟩

/-- A make code becomes the last one. -/
theorem irq_make {scancode : BitVec 8} (h : scancode &&& 0x80#8 = 0#8) :
    ∃ shift, kbdIrqHandler s scancode =
      { s with lastScancode := scancode, keyPressed := true, isPressedShift := shift
               arrivals := s.arrivals ++ [scancode] } := by
  unfold kbdIrqHandler
  simp only [if_pos h]
  (repeat' split) <;> exact ⟨_, rfl⟩

/-! ### What holds in every run -/

/-- What holds however interrupts fall. -/
structure Tracks (s : Kbd) : Prop where
  /-- `_last_scancode` is the last make code. -/
  last : s.arrivals ≠ [] → s.arrivals.getLast? = some s.lastScancode
  /-- A key that is waiting was pressed. -/
  pressed : s.keyPressed = true → s.arrivals ≠ []
  /-- The server goes on to read only when there is a key. -/
  read : s.point = .read → s.keyPressed = true
  /-- The values returned are make codes that arrived. -/
  codes : ∀ p ∈ s.returned, s.arrivals[p.1]? = some p.2
  /-- The make codes are returned in the order they arrived in. -/
  order : (s.returned.map Prod.fst).Pairwise (· < ·)
  /-- A key that is waiting has not been returned, unless the server is about to clear it. -/
  fresh : s.keyPressed = true → s.point ≠ .clear → ∀ p ∈ s.returned, p.1 + 1 < s.arrivals.length

/-- The numbers returned are those of make codes that arrived. -/
theorem Tracks.bound (h : Tracks s) {p : Nat × BitVec 8} (hp : p ∈ s.returned) :
    p.1 < s.arrivals.length := by
  obtain ⟨hlt, -⟩ := List.getElem?_eq_some_iff.mp (h.codes p hp)
  exact hlt

/-- An interrupt keeps track of the keys. -/
theorem Tracks.irq (h : Tracks s) (scancode : BitVec 8) : Tracks (kbdIrqHandler s scancode) := by
  by_cases hm : scancode &&& 0x80#8 = 0#8
  · obtain ⟨shift, heq⟩ := irq_make (s := s) hm
    rw [heq]
    refine ⟨?_, ?_, ?_, ?_, h.order, ?_⟩
    · intro _
      exact List.getLast?_concat ..
    · intro _
      exact List.append_ne_nil_of_right_ne_nil _ (List.cons_ne_nil _ _)
    · intro _
      rfl
    · intro p hp
      rw [← h.codes p hp]
      exact List.getElem?_append_left (h.bound hp)
    · -- everything returned so far is older than the new key
      intro _ _ p hp
      have hlt := h.bound hp
      simp only [List.length_append, List.length_singleton]
      omega
  · obtain ⟨shift, heq⟩ := irq_break (s := s) hm
    rw [heq]
    exact ⟨h.last, h.pressed, h.read, h.codes, h.order, h.fresh⟩

/-- The read returns the last make code, which was never returned before. -/
theorem Tracks.serve_read (h : Tracks s) (hp : s.point = .read) (type : BitVec 32) :
    Tracks (serve beyond s type) := by
  have hkey := h.read hp
  have hne := h.pressed hkey
  have hlen : 0 < s.arrivals.length := List.length_pos_iff.mpr hne
  have hfresh := h.fresh hkey (by rw [hp]; decide)
  simp only [serve, hp]
  refine ⟨h.last, h.pressed, nofun, ?_, ?_, fun _ e => absurd rfl e⟩
  · intro p hmem
    obtain hmem | hmem := List.mem_append.mp hmem
    · exact h.codes p hmem
    · obtain rfl := List.mem_singleton.mp hmem
      rw [← h.last hne, List.getLast?_eq_getElem?]
  · rw [List.map_append, List.pairwise_append]
    refine ⟨h.order, List.pairwise_singleton _ _, ?_⟩
    intro n hn m hm
    obtain ⟨p, hpm, rfl⟩ := List.mem_map.mp hn
    obtain rfl := List.mem_singleton.mp hm
    have hlt := hfresh p hpm
    show p.1 < s.arrivals.length - 1
    omega

/-- **Step lemma.**  Every step of the server keeps track of the keys. -/
theorem Tracks.serve (h : Tracks s) (type : BitVec 32) : Tracks (serve beyond s type) := by
  cases hp : s.point with
  | recv =>
    simp only [Keyboard.serve, hp]
    refine ⟨h.last, h.pressed, ?_, h.codes, h.order, fun hk _ => h.fresh hk (by rw [hp]; decide)⟩
    intro hr
    split at hr <;> exact nomatch hr
  | wait =>
    simp only [Keyboard.serve, hp]
    split
    · rename_i hk
      exact ⟨h.last, h.pressed, fun _ => hk, h.codes, h.order,
        fun hk _ => h.fresh hk (by rw [hp]; decide)⟩
    · exact h
  | read => exact h.serve_read hp type
  | clear =>
    simp only [Keyboard.serve, hp]
    exact ⟨h.last, nofun, nofun, h.codes, h.order,
      nofun⟩
  | reply =>
    simp only [Keyboard.serve, hp]
    exact ⟨h.last, h.pressed, nofun, h.codes, h.order,
      fun hk _ => h.fresh hk (by rw [hp]; decide)⟩

/-- **Run lemma.** -/
theorem run_tracks (hstart : Start s₀) (hrun : Run (Step beyond ok) s₀ tr s) : Tracks s := by
  obtain ⟨hp, hk, ha, hr⟩ := hstart
  refine hrun.invariant (J := fun _ s => Tracks s) ?_ ?_
  · refine ⟨fun h => absurd ha h, fun h => ?_, fun h => ?_, ?_, ?_, fun h => ?_⟩
    · exact absurd (hk.symm.trans h) (by decide)
    · exact absurd (hp.symm.trans h) (by decide)
    · simp [hr]
    · simp [hr]
    · exact absurd (hk.symm.trans h) (by decide)
  · rintro _ s e _ h ⟨-, rfl⟩
    cases e with
    | irq scancode => exact h.irq scancode
    | server type => exact h.serve type

/-- Any events make a run. -/
theorem run_events (tr : List Event) (s : Kbd) :
    Run (Step beyond anyEvent) s tr (tr.foldl (Kbd.after beyond) s) :=
  Run.foldl (fun _ _ => ⟨trivial, rfl⟩) tr s

/-! ### Lost keys -/

/-- A key that is waiting, and that the server is not about to clear, can still be
    returned. -/
theorem can_return (hkey : s.keyPressed = true) (hp : s.point ≠ .clear) :
    ∃ tr t, Run (Step beyond anyEvent) s tr t ∧ t.Returned (s.arrivals.length - 1) := by
  cases hpt : s.point with
  | clear => exact absurd hpt hp
  -- the server's own steps, with a `MSG_GETC` should it be waiting for a message
  | read =>
    refine ⟨_, _, run_events [.server msgGetc] s, ?_⟩
    simp [Kbd.after, serve, hpt, Kbd.Returned]
  | wait =>
    refine ⟨_, _, run_events (List.replicate 2 (.server msgGetc)) s, ?_⟩
    simp [List.replicate_succ, Kbd.after, serve, hpt, hkey, Kbd.Returned]
  | recv =>
    refine ⟨_, _, run_events (List.replicate 3 (.server msgGetc)) s, ?_⟩
    simp [List.replicate_succ, Kbd.after, serve, hpt, hkey, Kbd.Returned]
  | reply =>
    refine ⟨_, _, run_events (List.replicate 4 (.server msgGetc)) s, ?_⟩
    simp [List.replicate_succ, Kbd.after, serve, hpt, hkey, Kbd.Returned]

/-- A key that is not waiting and was not returned is lost. -/
theorem lost_of_cleared (h : Tracks s) (hkey : s.keyPressed = false) {n : Nat}
    (hn : n < s.arrivals.length) (hr : ¬ s.Returned n) : Lost beyond s n := by
  refine ⟨hn, fun tr t hrun => ?_⟩
  -- as long as it is the last one, no key is waiting, so nothing is read
  have hinv : Tracks t ∧ n < t.arrivals.length ∧ ¬ t.Returned n ∧
      (t.arrivals.length = n + 1 → t.keyPressed = false) := by
    refine hrun.invariant (J := fun _ t => Tracks t ∧ n < t.arrivals.length ∧ ¬ t.Returned n ∧
      (t.arrivals.length = n + 1 → t.keyPressed = false)) ⟨h, hn, hr, fun _ => hkey⟩ ?_
    rintro _ t e _ ⟨ht, hlt, hret, hlast⟩ ⟨-, rfl⟩
    cases e with
    | irq scancode =>
      refine ⟨ht.irq scancode, ?_⟩
      by_cases hm : scancode &&& 0x80#8 = 0#8
      · obtain ⟨shift, heq⟩ := irq_make (s := t) hm
        simp only [Kbd.after, heq, List.length_append, List.length_singleton]
        exact ⟨by omega, hret, fun e => by omega⟩
      · obtain ⟨shift, heq⟩ := irq_break (s := t) hm
        simp only [Kbd.after, heq]
        exact ⟨hlt, hret, hlast⟩
    | server type =>
      refine ⟨ht.serve type, ?_⟩
      simp only [Kbd.after]
      cases hp : t.point with
      | recv | reply =>
        simp only [serve, hp]
        exact ⟨hlt, hret, hlast⟩
      | wait =>
        simp only [serve, hp]
        split <;> exact ⟨hlt, hret, hlast⟩
      | clear =>
        simp only [serve, hp]
        exact ⟨hlt, hret, fun _ => trivial⟩
      | read =>
        simp only [serve, hp]
        refine ⟨hlt, ?_, hlast⟩
        intro hmem
        obtain hmem | hmem := List.mem_append.mp ((List.map_append ..).symm ▸ hmem :
          n ∈ t.returned.map Prod.fst ++ [(t.arrivals.length - 1, t.lastScancode)].map Prod.fst)
        · exact hret hmem
        · obtain rfl := List.mem_singleton.mp hmem
          have hwaits := hlast (by simp only; omega)
          exact absurd (hwaits.symm.trans (ht.read hp)) (by decide)
  exact hinv.2.2.1

/-- **A make code before the clear is lost.**  The make code arrives, the server clears
    `_key_pressed`, and the last key pressed is never returned. -/
theorem arrival_before_clear_lost (h : Tracks s) (hp : s.point = .clear) {scancode : BitVec 8}
    (hm : scancode &&& 0x80#8 = 0#8) (type : BitVec 32) :
    Lost beyond (serve beyond (kbdIrqHandler s scancode) type) s.arrivals.length ∧
      (serve beyond (kbdIrqHandler s scancode) type).arrivals.length = s.arrivals.length + 1 := by
  have hafter : Tracks (serve beyond (kbdIrqHandler s scancode) type) := (h.irq scancode).serve type
  obtain ⟨shift, heq⟩ := irq_make (s := s) hm
  rw [heq] at hafter ⊢
  simp only [serve, hp] at hafter ⊢
  refine ⟨lost_of_cleared hafter rfl (by simp) ?_, by simp⟩
  intro hmem
  obtain ⟨p, hpm, heq⟩ := List.mem_map.mp hmem
  have hlt := h.bound hpm
  omega

/-- The last make code is waiting or has been returned; once the server is about to clear,
    it has been returned. -/
structure Kept (s : Kbd) : Prop where
  last : s.arrivals ≠ [] → s.keyPressed = true ∨ s.Returned (s.arrivals.length - 1)
  cleared : s.point = .clear → s.Returned (s.arrivals.length - 1)

/-- **Step lemma.**  An event that is not a make code before the clear keeps the last key. -/
theorem Kept.step (h : Kept s) {e : Event} (hok : NotBeforeClear s e) :
    Kept (s.after beyond e) := by
  cases e with
  | irq scancode =>
    by_cases hm : scancode &&& 0x80#8 = 0#8
    · obtain ⟨shift, heq⟩ := irq_make (s := s) hm
      rw [Kbd.after, heq]
      exact ⟨fun _ => Or.inl rfl, fun hp => absurd hm (hok hp)⟩
    · obtain ⟨shift, heq⟩ := irq_break (s := s) hm
      rw [Kbd.after, heq]
      exact ⟨h.last, h.cleared⟩
  | server type =>
    rw [Kbd.after]
    cases hp : s.point with
    | recv =>
      simp only [serve, hp]
      exact ⟨h.last, fun e => by split at e <;> exact nomatch e⟩
    | wait =>
      simp only [serve, hp]
      split
      · exact ⟨h.last, nofun⟩
      · exact ⟨h.last, h.cleared⟩
    | read =>
      simp only [serve, hp]
      have hret : s.arrivals.length - 1 ∈ (s.returned ++
          [(s.arrivals.length - 1, s.lastScancode)]).map Prod.fst := by
        simp
      exact ⟨fun _ => Or.inr hret, fun _ => hret⟩
    | clear =>
      simp only [serve, hp]
      exact ⟨fun _ => Or.inr (h.cleared hp), nofun⟩
    | reply =>
      simp only [serve, hp]
      exact ⟨h.last, nofun⟩

/-- **Run lemma.** -/
theorem run_kept (hstart : Start s₀) (hrun : Run (Step beyond NotBeforeClear) s₀ tr s) :
    Kept s := by
  refine hrun.invariant (J := fun _ s => Kept s) ?_ ?_
  · exact ⟨fun h => absurd hstart.2.2.1 h, fun h => absurd (hstart.1.symm.trans h) (by decide)⟩
  · rintro _ s e _ h ⟨hok, rfl⟩
    exact h.step hok

/-- **No lost or repeated key.**  However interrupts and the steps of the server interleave, a
    make code is returned at most once, with its own scancode; and when none arrives between
    the read of `_last_scancode` and the clearing of `_key_pressed`, a make code is lost only if
    a later one has come before it was read. -/
theorem keys_kept (hstart : Start s₀) (hrun : Run (Step beyond NotBeforeClear) s₀ tr s) :
    (s.returned.map Prod.fst).Nodup ∧ (∀ p ∈ s.returned, s.arrivals[p.1]? = some p.2) ∧
      ∀ n, Lost beyond s n → n + 1 < s.arrivals.length := by
  have h := run_kept hstart hrun
  have htracks := run_tracks hstart hrun
  refine ⟨htracks.order.imp Nat.ne_of_lt, htracks.codes, ?_⟩
  intro n ⟨hn, hlost⟩
  have hunread : ¬ s.Returned n := hlost [] s Run.start
  by_contra hlast
  obtain rfl : n = s.arrivals.length - 1 := by omega
  obtain hkey | hret := h.last (List.ne_nil_of_length_pos (by omega))
  · have hready : s.point ≠ .clear := fun hp => hunread (h.cleared hp)
    obtain ⟨tr', t, hrun', hret⟩ := @can_return beyond s hkey hready
    exact hlost tr' t hrun' hret
  · exact hunread hret

/-- The server as it starts. -/
def idleServer : Kbd where
  lastScancode := 0x00#8
  keyPressed := false
  isPressedShift := false
  point := .recv
  reply := 0#32
  arrivals := []
  returned := []

/-- A key is pressed and fetched; the next one arrives after the clear. -/
def patientTyping : List Event :=
  [.irq 0x1e#8, .server msgGetc, .server msgGetc, .server msgGetc, .irq 0x9e#8, .server msgGetc,
   .irq 0x30#8, .server msgGetc]

/-- The server after that. -/
def patientServer : Kbd := patientTyping.foldl (Kbd.after fun _ => 0#8) idleServer

/-- In such a run nothing is lost. -/
theorem keys_kept_patient :
    (patientServer.returned.map Prod.fst).Nodup ∧
      (∀ p ∈ patientServer.returned, patientServer.arrivals[p.1]? = some p.2) ∧
      ∀ n, Lost (fun _ => 0#8) patientServer n → n + 1 < patientServer.arrivals.length :=
  keys_kept (show Start idleServer from ⟨rfl, rfl, rfl, rfl⟩)
    (run_permitted patientTyping (by decide))

/-- The next key arrives before the clear. -/
def quickTyping : List Event :=
  [.irq 0x1e#8, .server msgGetc, .server msgGetc, .server msgGetc, .irq 0x30#8, .server msgGetc]

/-- Without the condition a key is lost although none follows it. -/
theorem quick_key_lost :
    ¬ ∀ (beyond : Nat → BitVec 8) (s₀ s : Kbd) (tr : List Event), Start s₀ →
      Run (Step beyond anyEvent) s₀ tr s →
        (s.returned.map Prod.fst).Nodup ∧ (∀ p ∈ s.returned, s.arrivals[p.1]? = some p.2) ∧
          ∀ n, Lost beyond s n → n + 1 < s.arrivals.length := by
  intro h
  have hstart : Start idleServer := ⟨rfl, rfl, rfl, rfl⟩
  have hrun : Run (Step (fun _ => 0#8) anyEvent) idleServer quickTyping _ := run_events _ _
  have hlost : Lost (fun _ => 0#8) (quickTyping.foldl (Kbd.after fun _ => 0#8) idleServer) 1 :=
    lost_of_cleared (run_tracks hstart hrun) (by decide) (by decide)
      (by simp only [Kbd.Returned]; decide)
  exact absurd ((h _ _ _ _ hstart hrun).2.2 1 hlost) (by decide)

end Leoman.Keyboard
