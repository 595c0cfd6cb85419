import Leoman.Lib.ByteMem
import Leoman.Lib.LinkCells
import Leoman.Lib.Runs

namespace Leoman

open ByteMem LinkCells Runs

/-!
# Tail queues (`include/queue.h`)

The `STAILQ` macros on memory: a head is two words, the address of the first element and that of
the word behind the last one, and an element has a link at a fixed offset.

* `stailqInit` … `stailqSwap` — the macros;
* `Stailqs` — what memory holds for the queues whose heads are initialised, any number of them;
* `StailqOp`, `StailqStep` — their use: a head is initialised before it is used, a new element is
  in no queue and overlaps none, what is removed is there;
* `stailq_refines` — after any number of them memory holds the lists they stand for.

The link field of a type is `off` bytes behind the start of its elements.  `TRASHIT` and
`QMD_SAVELINK` are empty without `QUEUE_MACRO_DEBUG`.
-/

/-! ### The macros -/

section Macros

variable (off : BitVec 32) (m : Mem)

/-- `STAILQ_FIRST`. -/
def stailqFirst (head : BitVec 32) : BitVec 32 := read32 m head

/-- `STAILQ_EMPTY`. -/
def stailqEmpty (head : BitVec 32) : Bool := stailqFirst m head = 0#32

/-- `&(head)->stqh_last`. -/
def stqhLast (head : BitVec 32) : BitVec 32 := head + 4#32

/-- `&STAILQ_NEXT`. -/
def stqeNext (elm : BitVec 32) : BitVec 32 := elm + off

/-- `STAILQ_NEXT`. -/
def stailqNext (elm : BitVec 32) : BitVec 32 := read32 m (stqeNext off elm)

/-- `STAILQ_INIT`. -/
def stailqInit (head : BitVec 32) : Mem :=
  let m := write32 m head 0#32
  write32 m (stqhLast head) head

/-- `STAILQ_INSERT_HEAD`. -/
def stailqInsertHead (head elm : BitVec 32) : Mem :=
  let first := stailqFirst m head
  let m := write32 m (stqeNext off elm) first
  let m := if first = 0#32 then write32 m (stqhLast head) (stqeNext off elm) else m
  write32 m head elm

/-- `STAILQ_INSERT_TAIL`. -/
def stailqInsertTail (head elm : BitVec 32) : Mem :=
  let m := write32 m (stqeNext off elm) 0#32
  let m := write32 m (read32 m (stqhLast head)) elm
  write32 m (stqhLast head) (stqeNext off elm)

/-- `STAILQ_INSERT_AFTER`. -/
def stailqInsertAfter (head tqelm elm : BitVec 32) : Mem :=
  let next := stailqNext off m tqelm
  let m := write32 m (stqeNext off elm) next
  let m := if next = 0#32 then write32 m (stqhLast head) (stqeNext off elm) else m
  write32 m (stqeNext off tqelm) elm

/-- `STAILQ_REMOVE_HEAD`. -/
def stailqRemoveHead (head : BitVec 32) : Mem :=
  let next := stailqNext off m (stailqFirst m head)
  let m := write32 m head next
  if next = 0#32 then write32 m (stqhLast head) head else m

/-- `STAILQ_REMOVE_AFTER`. -/
def stailqRemoveAfter (head elm : BitVec 32) : Mem :=
  let next := stailqNext off m (stailqNext off m elm)
  let m := write32 m (stqeNext off elm) next
  if next = 0#32 then write32 m (stqhLast head) (stqeNext off elm) else m

/-- The loop of `STAILQ_REMOVE`, with `n` rounds left: the element before `elm`. -/
def stailqBefore (elm : BitVec 32) : Nat → BitVec 32 → Option (BitVec 32)
  | 0, _ => none
  | n + 1, curelm =>
    if stailqNext off m curelm = elm then some curelm
    else stailqBefore elm n (stailqNext off m curelm)

/-- `STAILQ_REMOVE`; `none` if the loop takes more than `n` rounds. -/
def stailqRemove (n : Nat) (head elm : BitVec 32) : Option Mem :=
  if stailqFirst m head = elm then some (stailqRemoveHead off m head)
  else (stailqBefore off m elm n (stailqFirst m head)).map (stailqRemoveAfter off m head)

/-- `STAILQ_CONCAT`. -/
def stailqConcat (head1 head2 : BitVec 32) : Mem :=
  if stailqEmpty m head2 then m
  else
    let m := write32 m (read32 m (stqhLast head1)) (stailqFirst m head2)
    let m := write32 m (stqhLast head1) (read32 m (stqhLast head2))
    stailqInit m head2

/-- The last lines of `STAILQ_SWAP`, for one head. -/
def stailqMend (head : BitVec 32) : Mem :=
  if stailqEmpty m head then write32 m (stqhLast head) head else m

/-- `STAILQ_SWAP`. -/
def stailqSwap (head1 head2 : BitVec 32) : Mem :=
  let first := stailqFirst m head1
  let last := read32 m (stqhLast head1)
  let m := write32 m head1 (stailqFirst m head2)
  let m := write32 m (stqhLast head1) (read32 m (stqhLast head2))
  let m := write32 m head2 first
  let m := write32 m (stqhLast head2) last
  stailqMend (stailqMend m head1) head2

/-- `STAILQ_LAST`. -/
def stailqLast (head : BitVec 32) : BitVec 32 :=
  if stailqEmpty m head then 0#32 else read32 m (stqhLast head) - off

/-- The elements `STAILQ_FOREACH` visits from `var` on; `none` if there are more than `n`. -/
def stailqForeach : Nat → BitVec 32 → Option (List (BitVec 32))
  | 0, var => if var = 0#32 then some [] else none
  | n + 1, var =>
    if var = 0#32 then some []
    else (stailqForeach n (stailqNext off m var)).map (var :: ·)

end Macros

/-! ### Queues in memory -/

/-- Where the heads are, and where the link is in an element. -/
structure StailqLayout (ι : Type) where
  head : ι → BitVec 32
  off : BitVec 32

section Queues

variable {ι : Type} [DecidableEq ι] (L : StailqLayout ι)

/-- The address of a link. -/
def StailqLayout.cell : Cell ι (BitVec 32) → BitVec 32
  | .first i => L.head i
  | .next e => stqeNext L.off e

/-- A pointer to an element. -/
def elmPtr : Option (BitVec 32) → BitVec 32
  | none => 0#32
  | some e => e

/-- The links that belong to the queues: those of the heads that are `up`, as `STAILQ_INIT` makes
    them, and of the elements. -/
def InQueues (up : ι → Prop) (q : ι → List (BitVec 32)) : Cell ι (BitVec 32) → Prop
  | .first i => up i
  | .next e => ∃ i, e ∈ q i

/-- No two of the words have a byte in common. -/
def DisjointWords (a b : BitVec 32) : Prop := ∀ x, InRange x a 4 → ¬ InRange x b 4

/-- The words of the heads and of these links do not overlap. -/
structure StailqLayout.Separate (used : Cell ι (BitVec 32) → Prop) : Prop where
  links : ∀ c d, used c → used d → c ≠ d → DisjointWords (L.cell c) (L.cell d)
  lasts : ∀ i j, used (.first i) → used (.first j) → i ≠ j →
    DisjointWords (stqhLast (L.head i)) (stqhLast (L.head j))
  both : ∀ i c, used (.first i) → used c → DisjointWords (stqhLast (L.head i)) (L.cell c)

/-- The memory `m` holds the links and end pointers of the store, and apart from them what `m₀`
    holds. -/
structure StailqLayout.Tracks (used : Cell ι (BitVec 32) → Prop) (m₀ m : Mem)
    (s : Store ι (BitVec 32)) : Prop where
  link : ∀ c, used c → read32 m (L.cell c) = elmPtr (s.link c)
  last : ∀ i, used (.first i) → read32 m (stqhLast (L.head i)) = L.cell (s.last i)
  rest : ∀ x, (∀ c, used c → ¬ InRange x (L.cell c) 4) →
    (∀ i, used (.first i) → ¬ InRange x (stqhLast (L.head i)) 4) → m x = m₀ x

/-- What memory holds for the queues.  Of a head that is not `up` it may hold anything. -/
structure StailqLayout.Stailqs (up : ι → Prop) (m : Mem) (q : ι → List (BitVec 32)) : Prop where
  separate : L.Separate (InQueues up q)
  nonnull : ∀ i, ∀ e ∈ q i, e ≠ 0#32
  down : ∀ i, ¬ up i → q i = []
  store : ∃ s, L.Tracks (InQueues up q) m m s ∧ Store.Holds s q

variable {L} {used used' : Cell ι (BitVec 32) → Prop} {m₀ m : Mem} {s : Store ι (BitVec 32)}
  {c d : Cell ι (BitVec 32)} {v : Option (BitVec 32)} {up : ι → Prop} {i j : ι} {e : BitVec 32}

omit [DecidableEq ι] in
theorem DisjointWords.symm {a b : BitVec 32} (h : DisjointWords a b) : DisjointWords b a :=
  fun x hb ha => h x ha hb

omit [DecidableEq ι] in
theorem DisjointWords.read {a b v : BitVec 32} (h : DisjointWords b a) :
    read32 (write32 m a v) b = read32 m b :=
  read32_write32_of_disjoint h

omit [DecidableEq ι] in
theorem StailqLayout.Tracks.mono (h : L.Tracks used m₀ m s) (hsub : ∀ c, used' c → used c)
    (m₁ : Mem) (hm : ∀ x, (∀ c, used' c → ¬ InRange x (L.cell c) 4) →
      (∀ i, used' (.first i) → ¬ InRange x (stqhLast (L.head i)) 4) → m x = m₁ x) :
    L.Tracks used' m₁ m s :=
  ⟨fun c hc => h.link c (hsub c hc), fun i hi => h.last i (hsub _ hi), hm⟩

/-- Write a link, also one that was not used so far. -/
theorem StailqLayout.Tracks.setLink (h : L.Tracks used m₀ m s) (hsep : L.Separate used')
    (hsub : ∀ d, used' d → d = c ∨ used d) (hsup : ∀ d, used d → used' d) (hc : used' c)
    (hfirst : ∀ i, used' (.first i) → used (.first i)) (v : Option (BitVec 32)) :
    L.Tracks used' m₀ (write32 m (L.cell c) (elmPtr v)) (s.setLink c v) := by
  refine ⟨fun d hd => ?_, fun i hi => ?_, fun x hx hl => ?_⟩
  · by_cases hdc : d = c
    · subst hdc
      rw [read32_write32_self, setLink_link, Function.update_self]
    · have hd' := (hsub d hd).resolve_left hdc
      rw [(hsep.links d c hd hc hdc).read, setLink_link, Function.update_of_ne hdc]
      exact h.link d hd'
  · rw [(hsep.both i c hi hc).read]
    exact h.last i (hfirst i hi)
  · rw [write32_of_not_inRange (hx c hc)]
    exact h.rest x (fun d hd => hx d (hsup d hd)) fun i hi => hl i (hsup _ hi)

/-- Write an end pointer. -/
theorem StailqLayout.Tracks.setLast (h : L.Tracks used m₀ m s) (hsep : L.Separate used)
    (hi : used (.first i)) (c : Cell ι (BitVec 32)) :
    L.Tracks used m₀ (write32 m (stqhLast (L.head i)) (L.cell c)) (s.setLast i c) := by
  refine ⟨fun d hd => ?_, fun j hj => ?_, fun x hx hl => ?_⟩
  · rw [(hsep.both i d hi hd).symm.read]
    exact h.link d hd
  · by_cases hji : j = i
    · subst hji
      rw [read32_write32_self, setLast_last, Function.update_self]
    · rw [(hsep.lasts j i hj hi hji).read, setLast_last, Function.update_of_ne hji]
      exact h.last j hj
  · rw [write32_of_not_inRange (hl i hi)]
    exact h.rest x hx hl

/-- Write a link that is used already. -/
theorem StailqLayout.Tracks.relink (h : L.Tracks used m₀ m s) (hsep : L.Separate used)
    (hc : used c) (v : Option (BitVec 32)) :
    L.Tracks used m₀ (write32 m (L.cell c) (elmPtr v)) (s.setLink c v) :=
  h.setLink hsep (fun _ hd => Or.inr hd) (fun _ hd => hd) hc (fun _ hi => hi) v

omit [DecidableEq ι] in
/-- A pointer is null if there is no element. -/
theorem elmPtr_eq_zero (hv : ∀ x, v = some x → x ≠ 0#32) : elmPtr v = 0#32 ↔ v = none := by
  cases v with
  | none => simp [elmPtr]
  | some x => simpa [elmPtr] using hv x rfl

omit [DecidableEq ι] in
/-- The words of the queues are all that matters of a memory. -/
theorem StailqLayout.Stailqs.congr {q : ι → List (BitVec 32)} {m' : Mem} (h : L.Stailqs up m q)
    (hcell : ∀ c, InQueues up q c → ∀ x, InRange x (L.cell c) 4 → m' x = m x)
    (hlast : ∀ i, up i → ∀ x, InRange x (stqhLast (L.head i)) 4 → m' x = m x) :
    L.Stailqs up m' q := by
  obtain ⟨s, ht, hs⟩ := h.store
  refine ⟨h.separate, h.nonnull, h.down, s,
    ⟨fun c hc => ?_, fun i hi => ?_, fun _ _ _ => rfl⟩, hs⟩
  · rw [read32_congr (hcell c hc)]
    exact ht.link c hc
  · rw [read32_congr (hlast i hi)]
    exact ht.last i hi

/-! ### The macros, one by one -/

/-- `STAILQ_INSERT_HEAD` and `STAILQ_INSERT_AFTER`: the link at `c` gets the new element. -/
theorem StailqLayout.Tracks.insertAt (h : L.Tracks used m₀ m s) (hsep : L.Separate used')
    (hused : ∀ d, used' d ↔ d = .next e ∨ used d) (hi : used (.first i)) (hc : used c)
    (hnull : ∀ x, s.link c = some x → x ≠ 0#32) :
    L.Tracks used' m₀ (write32
      (if read32 m (L.cell c) = 0#32 then
        write32 (write32 m (stqeNext L.off e) (read32 m (L.cell c))) (stqhLast (L.head i))
          (stqeNext L.off e)
      else write32 m (stqeNext L.off e) (read32 m (L.cell c))) (L.cell c) e)
      (s.insertAt i c e) := by
  have hread := h.link c hc
  have h₁ : L.Tracks used' m₀ (write32 m (L.cell (.next e)) (elmPtr (s.link c)))
      (s.setLink (.next e) (s.link c)) :=
    h.setLink hsep (fun d hd => (hused d).mp hd) (fun d hd => (hused d).mpr (Or.inr hd))
      ((hused _).mpr (Or.inl rfl)) (fun _ hj => ((hused _).mp hj).resolve_left nofun) _
  rw [hread]
  by_cases hnone : s.link c = none
  · simp only [Store.insertAt, if_pos ((elmPtr_eq_zero hnull).mpr hnone), if_pos hnone]
    have hi' : used' (.first i) := (hused _).mpr (Or.inr hi)
    exact (h₁.setLast hsep hi' (.next e)).relink hsep ((hused c).mpr (Or.inr hc)) (some e)
  · simp only [Store.insertAt, if_neg (fun h => hnone ((elmPtr_eq_zero hnull).mp h)),
      if_neg hnone]
    exact h₁.relink hsep ((hused c).mpr (Or.inr hc)) (some e)

/-- `STAILQ_INSERT_TAIL`: the link behind the last element gets the new one. -/
theorem StailqLayout.Tracks.insertTail (h : L.Tracks used m₀ m s) (hsep : L.Separate used')
    (hused : ∀ d, used' d ↔ d = .next e ∨ used d) (hi : used (.first i)) (hc : used (s.last i))
    (hnone : s.link (s.last i) = none) :
    L.Tracks used' m₀ (stailqInsertTail L.off m (L.head i) e) (s.insertAt i (s.last i) e) := by
  have h₁ : L.Tracks used' m₀ (write32 m (L.cell (.next e)) (elmPtr none))
      (s.setLink (.next e) none) :=
    h.setLink hsep (fun d hd => (hused d).mp hd) (fun d hd => (hused d).mpr (Or.inr hd))
      ((hused _).mpr (Or.inl rfl)) (fun _ hj => ((hused _).mp hj).resolve_left nofun) _
  have hi' : used' (.first i) := (hused _).mpr (Or.inr hi)
  have hlast : read32 (write32 m (L.cell (.next e)) (elmPtr none)) (stqhLast (L.head i))
      = L.cell (s.last i) := h₁.last i hi'
  have h₂ := (h₁.relink hsep ((hused _).mpr (Or.inr hc)) (some e)).setLast hsep hi' (.next e)
  rw [← hlast] at h₂
  -- the end pointer may as well be written first
  have hstore : s.insertAt i (s.last i) e
      = ((s.setLink (.next e) none).setLink (s.last i) (some e)).setLast i (.next e) := by
    simp only [Store.insertAt, hnone]
    rfl
  rw [hstore]
  exact h₂

/-- `STAILQ_REMOVE_HEAD` and `STAILQ_REMOVE_AFTER`: the link at `c` skips the element `e`. -/
theorem StailqLayout.Tracks.removeAt (h : L.Tracks used m₀ m s) (hsep : L.Separate used)
    (hi : used (.first i)) (hc : used c) (he : used (.next e))
    (hnull : ∀ x, s.link (.next e) = some x → x ≠ 0#32) :
    L.Tracks used m₀
      (if read32 m (stqeNext L.off e) = 0#32 then
        write32 (write32 m (L.cell c) (read32 m (stqeNext L.off e))) (stqhLast (L.head i))
          (L.cell c)
      else write32 m (L.cell c) (read32 m (stqeNext L.off e))) (s.removeAt i c e) := by
  have hread : read32 m (stqeNext L.off e) = elmPtr (s.link (.next e)) := h.link (.next e) he
  have h₁ := h.relink hsep hc (s.link (.next e))
  rw [hread]
  by_cases hnone : s.link (.next e) = none
  · simp only [Store.removeAt, if_pos ((elmPtr_eq_zero hnull).mpr hnone), if_pos hnone]
    exact h₁.setLast hsep hi c
  · simp only [Store.removeAt, if_neg (fun h => hnone ((elmPtr_eq_zero hnull).mp h)),
      if_neg hnone]
    exact h₁

/-- `STAILQ_INIT`, of a head in use or of a new one. -/
theorem StailqLayout.Tracks.init (h : L.Tracks used m₀ m s) (hsep : L.Separate used')
    (hused : ∀ d, used' d ↔ d = .first i ∨ used d) :
    L.Tracks used' m₀ (stailqInit m (L.head i)) (s.init i) := by
  have hi : used' (.first i) := (hused _).mpr (Or.inl rfl)
  unfold stailqInit Store.init
  refine ⟨fun d hd => ?_, fun j hj => ?_, fun x hx hl => ?_⟩
  · rw [(hsep.both i d hi hd).symm.read, setLast_link, setLink_link]
    by_cases hdi : d = .first i
    · subst hdi
      rw [Function.update_self]
      exact read32_write32_self m (L.head i) 0#32
    · rw [Function.update_of_ne hdi, ← h.link d (((hused d).mp hd).resolve_left hdi)]
      exact (hsep.links d (.first i) hd hi hdi).read
  · by_cases hji : j = i
    · subst hji
      rw [read32_write32_self, setLast_last, Function.update_self]
      rfl
    · have hj' : used (.first j) :=
        ((hused _).mp hj).resolve_left fun heq => hji (Cell.first.inj heq)
      rw [(hsep.lasts j i hj hi hji).read, setLast_last, Function.update_of_ne hji]
      exact (hsep.both j (.first i) hj hi).read.trans (h.last j hj')
  · have hcell : ¬ InRange x (L.head i) 4 := hx (.first i) hi
    rw [write32_of_not_inRange (hl i hi), write32_of_not_inRange hcell]
    exact h.rest x (fun d hd => hx d ((hused d).mpr (Or.inr hd)))
      fun j hj => hl j ((hused _).mpr (Or.inr hj))

/-- `STAILQ_CONCAT`. -/
theorem StailqLayout.Tracks.concat (h : L.Tracks used m₀ m s) (hsep : L.Separate used)
    (hi : used (.first i)) (hc : used (s.last i)) (hj : used (.first j))
    (hnull : ∀ x, s.link (.first j) = some x → x ≠ 0#32) :
    L.Tracks used m₀ (stailqConcat m (L.head i) (L.head j)) (s.concat i j) := by
  have hread : read32 m (L.head j) = elmPtr (s.link (.first j)) := h.link (.first j) hj
  unfold stailqConcat Store.concat stailqEmpty stailqFirst
  rw [hread]
  by_cases hnone : s.link (.first j) = none
  · rw [if_pos (decide_eq_true ((elmPtr_eq_zero hnull).mpr hnone)), if_pos hnone]
    exact h
  · rw [if_neg (fun h => hnone ((elmPtr_eq_zero hnull).mp (of_decide_eq_true h))), if_neg hnone]
    have h₁ := h.relink hsep hc (s.link (.first j))
    have h₂ := h₁.setLast hsep hi (s.last j)
    have hlast : read32 (write32 m (L.cell (s.last i)) (elmPtr (s.link (.first j))))
        (stqhLast (L.head j)) = L.cell (s.last j) := h₁.last j hj
    rw [← hlast, ← h.last i hi] at h₂
    exact h₂.init hsep fun d => ⟨Or.inr, fun hd => hd.elim (fun heq => heq ▸ hj) fun hd => hd⟩

/-- The end of `STAILQ_SWAP`. -/
theorem StailqLayout.Tracks.mend (h : L.Tracks used m₀ m s) (hsep : L.Separate used)
    (hi : used (.first i)) (hnull : ∀ x, s.link (.first i) = some x → x ≠ 0#32) :
    L.Tracks used m₀ (stailqMend m (L.head i)) (s.mend i) := by
  have hread : read32 m (L.head i) = elmPtr (s.link (.first i)) := h.link (.first i) hi
  unfold stailqMend Store.mend stailqEmpty stailqFirst
  rw [hread]
  by_cases hnone : s.link (.first i) = none
  · rw [if_pos (decide_eq_true ((elmPtr_eq_zero hnull).mpr hnone)), if_pos hnone]
    exact h.setLast hsep hi (.first i)
  · rw [if_neg (fun h => hnone ((elmPtr_eq_zero hnull).mp (of_decide_eq_true h))), if_neg hnone]
    exact h

/-- `STAILQ_SWAP`. -/
theorem StailqLayout.Tracks.swap (h : L.Tracks used m₀ m s) (hsep : L.Separate used) (hij : i ≠ j)
    (hi : used (.first i)) (hj : used (.first j))
    (hnull : ∀ k x, s.link (.first k) = some x → x ≠ 0#32) :
    L.Tracks used m₀ (stailqSwap m (L.head i) (L.head j)) (s.swap i j) := by
  have hfirst : (.first i : Cell ι (BitVec 32)) ≠ .first j := fun heq => hij (Cell.first.inj heq)
  have h₁ := h.relink hsep hi (s.link (.first j))
  have h₂ := h₁.setLast hsep hi (s.last j)
  have h₃ := h₂.relink hsep hj (s.link (.first i))
  have h₄ := h₃.setLast hsep hj (s.last i)
  have hlink : ∀ k x, ((((s.setLink (.first i) (s.link (.first j))).setLast i (s.last j)).setLink
      (.first j) (s.link (.first i))).setLast j (s.last i)).link (.first k) = some x →
        x ≠ 0#32 := by
    intro k x hx
    simp only [setLast_link, setLink_link] at hx
    rcases eq_or_ne k j with rfl | hkj
    · rw [Function.update_self] at hx
      exact hnull i x hx
    rw [Function.update_of_ne fun heq => hkj (Cell.first.inj heq)] at hx
    rcases eq_or_ne k i with rfl | hki
    · rw [Function.update_self] at hx
      exact hnull j x hx
    · rw [Function.update_of_ne fun heq => hki (Cell.first.inj heq)] at hx
      exact hnull k x hx
  have h₅ := (h₄.mend hsep hi (hlink i)).mend hsep hj (i := j) fun x hx => by
    rw [mend_link] at hx
    exact hlink j x hx
  -- what the macro reads is what the store has
  have hi' : read32 m (L.head i) = elmPtr (s.link (.first i)) := h.link (.first i) hi
  have hj' : read32 m (L.head j) = elmPtr (s.link (.first j)) := h.link (.first j) hj
  have hlast : read32 (write32 m (L.head i) (elmPtr (s.link (.first j)))) (stqhLast (L.head j))
      = L.cell (s.last j) := h₁.last j hj
  unfold stailqSwap stailqFirst
  simp only [hi', hj', h.last i hi, hlast]
  exact h₅

/-! ### Loops over a queue -/

omit [DecidableEq ι] in
/-- The loop of `STAILQ_REMOVE` stops at the element before the one it looks for. -/
theorem StailqLayout.Tracks.before (h : L.Tracks used m₀ m s) {x : BitVec 32}
    {xs ys : List (BitVec 32)} (hchain : Linked s.link (.next x) (xs ++ e :: ys))
    (hused : ∀ y ∈ x :: xs, used (.next y)) (he : e ∉ xs) (n : Nat) :
    stailqBefore L.off m e n x = if xs.length < n then (x :: xs).getLast? else none := by
  induction n generalizing x xs with
  | zero => rfl
  | succ n ih =>
    have hread : stailqNext L.off m x = elmPtr (s.link (.next x)) :=
      h.link (.next x) (hused x List.mem_cons_self)
    unfold stailqBefore
    cases xs with
    | nil =>
      have hpos : ([] : List (BitVec 32)).length < n + 1 := Nat.succ_pos n
      rw [hread, (linked_cons.mp hchain).1, elmPtr, if_pos rfl, if_pos hpos]
      rfl
    | cons y xs =>
      obtain ⟨hlink, hrest⟩ := linked_cons.mp hchain
      have hye : y ≠ e := fun heq => he (heq ▸ List.mem_cons_self)
      rw [hread, hlink, elmPtr, if_neg hye,
        ih hrest (fun z hz => hused z (List.mem_cons_of_mem x hz))
        fun hmem => he (List.mem_cons_of_mem y hmem)]
      simp only [List.length_cons, Nat.add_lt_add_iff_right, List.getLast?_cons_cons]

omit [DecidableEq ι] in
/-- `STAILQ_FOREACH` visits the elements of the queue. -/
theorem StailqLayout.Tracks.foreach (h : L.Tracks used m₀ m s) {es : List (BitVec 32)}
    (hchain : Linked s.link c es) (hused : ∀ x ∈ es, used (.next x))
    (hnull : ∀ x ∈ es, x ≠ 0#32) (n : Nat) :
    stailqForeach L.off m n (elmPtr (s.link c)) = if es.length ≤ n then some es else none := by
  induction n generalizing c es with
  | zero =>
    unfold stailqForeach
    cases es with
    | nil =>
      rw [linked_nil.mp hchain]
      rfl
    | cons x es =>
      rw [(linked_cons.mp hchain).1, elmPtr, if_neg (hnull x List.mem_cons_self)]
      rfl
  | succ n ih =>
    unfold stailqForeach
    cases es with
    | nil =>
      rw [linked_nil.mp hchain]
      rfl
    | cons x es =>
      obtain ⟨hlink, hrest⟩ := linked_cons.mp hchain
      have hread : stailqNext L.off m x = elmPtr (s.link (.next x)) :=
        h.link (.next x) (hused x List.mem_cons_self)
      rw [hlink, elmPtr, if_neg (hnull x List.mem_cons_self), hread,
        ih hrest (fun y hy => hused y (List.mem_cons_of_mem x hy))
          fun y hy => hnull y (List.mem_cons_of_mem x hy)]
      by_cases hlen : es.length ≤ n
      · rw [if_pos hlen, if_pos (by simpa using hlen)]
        rfl
      · rw [if_neg hlen, if_neg (by simpa using hlen)]
        rfl

end Queues

/-! ### Using the macros -/

/-- A use of a macro, by the queues and the elements it is given. -/
inductive StailqOp (ι : Type) where
  | init (i : ι)
  | insertHead (i : ι) (e : BitVec 32)
  | insertTail (i : ι) (e : BitVec 32)
  | insertAfter (i : ι) (t e : BitVec 32)
  | removeHead (i : ι)
  | removeAfter (i : ι) (t : BitVec 32)
  | remove (i : ι) (e : BitVec 32)
  | concat (i j : ι)
  | swap (i j : ι)

/-- Put `e` behind `t`. -/
def insertBehind (t e : BitVec 32) : List (BitVec 32) → List (BitVec 32)
  | [] => []
  | x :: xs => if x = t then x :: e :: xs else x :: insertBehind t e xs

/-- Take out what is behind `t`. -/
def dropBehind (t : BitVec 32) : List (BitVec 32) → List (BitVec 32)
  | [] => []
  | x :: xs => if x = t then x :: xs.tail else x :: dropBehind t xs

section Ops

variable {ι : Type} [DecidableEq ι] (L : StailqLayout ι)

/-- What it means for the lists. -/
def StailqOp.apply : StailqOp ι → (ι → List (BitVec 32)) → ι → List (BitVec 32)
  | .init i, q => Function.update q i []
  | .insertHead i e, q => Function.update q i (e :: q i)
  | .insertTail i e, q => Function.update q i (q i ++ [e])
  | .insertAfter i t e, q => Function.update q i (insertBehind t e (q i))
  | .removeHead i, q => Function.update q i (q i).tail
  | .removeAfter i t, q => Function.update q i (dropBehind t (q i))
  | .remove i e, q => Function.update q i ((q i).erase e)
  | .concat i j, q => Function.update (Function.update q j []) i (q i ++ q j)
  | .swap i j, q => fun k => q (Equiv.swap i j k)

/-- What it does to memory; `n` rounds for the loop of `STAILQ_REMOVE`. -/
def StailqOp.exec (n : Nat) : StailqOp ι → Mem → Option Mem
  | .init i, m => some (stailqInit m (L.head i))
  | .insertHead i e, m => some (stailqInsertHead L.off m (L.head i) e)
  | .insertTail i e, m => some (stailqInsertTail L.off m (L.head i) e)
  | .insertAfter i t e, m => some (stailqInsertAfter L.off m (L.head i) t e)
  | .removeHead i, m => some (stailqRemoveHead L.off m (L.head i))
  | .removeAfter i t, m => some (stailqRemoveAfter L.off m (L.head i) t)
  | .remove i e, m => stailqRemove L.off m n (L.head i) e
  | .concat i j, m => some (stailqConcat m (L.head i) (L.head j))
  | .swap i j, m => some (stailqSwap m (L.head i) (L.head j))

/-- The heads it uses. -/
def StailqOp.heads : StailqOp ι → List ι
  | .init _ => []
  | .insertHead i _ | .insertTail i _ | .insertAfter i _ _ | .removeHead i | .removeAfter i _
  | .remove i _ => [i]
  | .concat i j | .swap i j => [i, j]

/-- The heads that are initialised after it. -/
def StailqOp.inits : StailqOp ι → (ι → Prop) → ι → Prop
  | .init i, up => fun k => k = i ∨ up k
  | .insertHead _ _, up | .insertTail _ _, up | .insertAfter _ _ _, up | .removeHead _, up
  | .removeAfter _ _, up | .remove _ _, up | .concat _ _, up | .swap _ _, up => up

/-- The element that is new. -/
def StailqOp.new? : StailqOp ι → Option (BitVec 32)
  | .insertHead _ e | .insertTail _ e | .insertAfter _ _ e => some e
  | .init _ | .removeHead _ | .removeAfter _ _ | .remove _ _ | .concat _ _ | .swap _ _ => none

/-- What callers see to: the heads are initialised, and the words of one that is being initialised
    overlap nothing that the queues use; nor does the link of a new element, which is one and in no
    queue; what is removed, or what it is next to, is in the queue; two queues are two. -/
structure StailqOp.Usable (op : StailqOp ι) (up : ι → Prop) (q : ι → List (BitVec 32)) :
    Prop where
  heads : ∀ i ∈ op.heads, up i
  fresh : ∀ e, op.new? = some e → e ≠ 0#32 ∧ (∀ j, e ∉ q j) ∧
    L.Separate fun d => d = .next e ∨ InQueues up q d
  there : match op with
    | .init i => L.Separate (InQueues (fun k => k = i ∨ up k) q)
    | .insertHead _ _ | .insertTail _ _ => True
    | .insertAfter i t _ => t ∈ q i
    | .removeHead i => q i ≠ []
    | .removeAfter i t => ∃ xs e ys, q i = xs ++ t :: e :: ys
    | .remove i e => e ∈ q i
    | .concat i j | .swap i j => i ≠ j

/-- Memory, the heads that are initialised, and the lists. -/
structure StailqState (ι : Type) where
  mem : Mem
  up : ι → Prop
  lists : ι → List (BitVec 32)

/-- A step, of memory and of the lists. -/
def StailqStep (s : StailqState ι) (op : StailqOp ι) (s' : StailqState ι) : Prop :=
  op.Usable L s.up s.lists ∧ s'.up = op.inits s.up ∧ s'.lists = op.apply s.lists ∧
    ∃ n, op.exec L n s.mem = some s'.mem

variable {L} {up : ι → Prop} {q q' : ι → List (BitVec 32)} {m m' : Mem} {op : StailqOp ι} {i : ι}
  {e t : BitVec 32} {xs ys : List (BitVec 32)} {n : Nat}

theorem insertBehind_append (ht : t ∉ xs) :
    insertBehind t e (xs ++ t :: ys) = xs ++ t :: e :: ys := by
  induction xs with
  | nil => simp [insertBehind]
  | cons x xs ih =>
    rw [List.mem_cons, not_or] at ht
    simp [insertBehind, ih ht.2, Ne.symm ht.1]

theorem dropBehind_append (ht : t ∉ xs) : dropBehind t (xs ++ t :: ys) = xs ++ t :: ys.tail := by
  induction xs with
  | nil => simp [dropBehind]
  | cons x xs ih =>
    rw [List.mem_cons, not_or] at ht
    simp [dropBehind, ih ht.2, Ne.symm ht.1]

theorem mem_of_mem_dropBehind {x : BitVec 32} (hx : x ∈ dropBehind t xs) : x ∈ xs := by
  induction xs with
  | nil => exact hx
  | cons y xs ih =>
    unfold dropBehind at hx
    rw [List.mem_cons]
    split at hx
    · exact (List.mem_cons.mp hx).imp_right List.mem_of_mem_tail
    · exact (List.mem_cons.mp hx).imp_right ih

/-- The queues after an insertion have the links they had, and one more. -/
theorem inQueues_insert (up : ι → Prop) (hq : q i = xs ++ ys) (d : Cell ι (BitVec 32)) :
    InQueues up (Function.update q i (xs ++ e :: ys)) d ↔ d = .next e ∨ InQueues up q d := by
  cases d with
  | first j => simp [InQueues]
  | next x =>
    simp only [InQueues, Cell.next.injEq]
    constructor
    · rintro ⟨j, hj⟩
      by_cases hji : j = i
      · subst hji
        rw [Function.update_self, List.mem_append, List.mem_cons] at hj
        rcases hj with hx | rfl | hx
        · exact Or.inr ⟨j, by rw [hq]; exact List.mem_append_left ys hx⟩
        · exact Or.inl rfl
        · exact Or.inr ⟨j, by rw [hq]; exact List.mem_append_right xs hx⟩
      · rw [Function.update_of_ne hji] at hj
        exact Or.inr ⟨j, hj⟩
    · rintro (rfl | ⟨j, hj⟩)
      · exact ⟨i, by simp⟩
      · by_cases hji : j = i
        · subst hji
          refine ⟨j, ?_⟩
          rw [hq, List.mem_append] at hj
          rw [Function.update_self, List.mem_append, List.mem_cons]
          exact hj.imp_right Or.inr
        · exact ⟨j, by rwa [Function.update_of_ne hji]⟩

omit [DecidableEq ι] in
/-- Fewer elements, fewer links. -/
theorem inQueues_mono (hsub : ∀ j, ∀ x ∈ q' j, ∃ i, x ∈ q i) (d : Cell ι (BitVec 32))
    (hd : InQueues up q' d) : InQueues up q d := by
  cases d with
  | first j => exact hd
  | next x =>
    obtain ⟨j, hj⟩ := hd
    exact hsub j x hj

omit [DecidableEq ι] in
theorem StailqLayout.Separate.mono {used used' : Cell ι (BitVec 32) → Prop} (h : L.Separate used)
    (hsub : ∀ d, used' d → used d) : L.Separate used' :=
  ⟨fun c d hc hd => h.links c d (hsub c hc) (hsub d hd), fun i j hi hj =>
    h.lasts i j (hsub _ hi) (hsub _ hj), fun i c hi hc => h.both i c (hsub _ hi) (hsub c hc)⟩

/-- The byte is none of those that the queues, the new head or the new element use. -/
def StailqLayout.Outside (L : StailqLayout ι) (up : ι → Prop) (q : ι → List (BitVec 32))
    (op : StailqOp ι) (x : BitVec 32) : Prop :=
  (∀ i, op.inits up i → ¬ InRange x (stqhLast (L.head i)) 4) ∧
    (∀ c, InQueues (op.inits up) q c → ¬ InRange x (L.cell c) 4) ∧
    ∀ e, op.new? = some e → ¬ InRange x (stqeNext L.off e) 4

/-- A macro did what it is for. -/
structure StailqLayout.Done (L : StailqLayout ι) (up : ι → Prop) (m : Mem)
    (q : ι → List (BitVec 32)) (op : StailqOp ι) (m' : Mem) : Prop where
  holds : L.Stailqs (op.inits up) m' (op.apply q)
  rest : ∀ x, L.Outside up q op x → m' x = m x

omit [DecidableEq ι] in
/-- The link behind some elements of a queue is used. -/
theorem inQueues_endCell (hi : up i) (hq : q i = xs ++ ys) :
    InQueues up q (endCell (.first i) xs) := by
  rcases endCell_cases (.first i : Cell ι (BitVec 32)) xs with ⟨-, hend⟩ | ⟨x, hx, hend⟩
  · rw [hend]
    exact hi
  · rw [hend]
    exact ⟨i, by rw [hq]; exact List.mem_append_left ys hx⟩

omit [DecidableEq ι] in
/-- What a used link points to is not null. -/
theorem StailqLayout.Stailqs.link_ne (h : L.Stailqs up m q) {s : Store ι (BitVec 32)}
    (hs : Store.Holds s q) (hq : q i = xs ++ ys) (x : BitVec 32)
    (hx : s.link (endCell (.first i) xs) = some x) : x ≠ 0#32 := by
  have hchain := hs.chain i
  rw [hq, linked_append] at hchain
  rw [hchain.2.head] at hx
  refine h.nonnull i x ?_
  rw [hq]
  exact List.mem_append_right xs (List.mem_of_head? hx)

/-- A queue that is not initialised is not the one that changes. -/
theorem update_down (h : ∀ j, ¬ up j → q j = []) (hi : up i) (es : List (BitVec 32)) (j : ι)
    (hj : ¬ up j) : Function.update q i es j = [] := by
  have hji : j ≠ i := fun heq => hj (heq ▸ hi)
  rw [Function.update_of_ne hji]
  exact h j hj

/-- An insertion, behind the elements `xs`. -/
theorem StailqLayout.Stailqs.inserted (h : L.Stailqs up m q) {s : Store ι (BitVec 32)}
    (hs : Store.Holds s q) (hu : op.Usable L up q) (hi : up i) (hinits : op.inits up = up)
    (hnew : op.new? = some e) (hq : q i = xs ++ ys)
    (hop : op.apply q = Function.update q i (xs ++ e :: ys))
    (ht : L.Tracks (fun d => d = .next e ∨ InQueues up q d) m m'
      (s.insertAt i (endCell (.first i) xs) e)) : L.Done up m q op m' := by
  obtain ⟨hne, hout, hsep⟩ := hu.fresh e hnew
  have hin := inQueues_insert up (e := e) hq
  refine ⟨?_, fun x hx => ht.rest x ?_ fun j hj => ?_⟩
  · rw [hop, hinits]
    refine ⟨hsep.mono fun d hd => (hin d).mp hd, fun j x hj => ?_, update_down h.down hi _, _,
      ht.mono (fun d hd => (hin d).mp hd) m' (fun _ _ _ => rfl), hs.insertAt hq hout⟩
    rcases (hin (.next x)).mp ⟨j, hj⟩ with hx | ⟨k, hk⟩
    · rw [Cell.next.inj hx]
      exact hne
    · exact h.nonnull k x hk
  · rw [StailqLayout.Outside, hinits] at hx
    rintro d (rfl | hd)
    · exact hx.2.2 e hnew
    · exact hx.2.1 d hd
  · rw [StailqLayout.Outside, hinits] at hx
    exact hx.1 j (hj.resolve_left nofun)

omit [DecidableEq ι] in
omit [DecidableEq ι] in
/-- The heads do not overlap after it. -/
theorem StailqOp.Usable.made (hu : op.Usable L up q) (h : L.Stailqs up m q) :
    L.Separate (InQueues (op.inits up) q) := by
  cases op with
  | init i => exact hu.there
  | insertHead | insertTail | insertAfter | removeHead | removeAfter | remove | concat | swap =>
    exact h.separate

/-- No new element. -/
theorem StailqLayout.Stailqs.changed (h : L.Stailqs up m q)
    {s : Store ι (BitVec 32)} (hu : op.Usable L up q) (hs : Store.Holds s (op.apply q))
    (hsub : ∀ j, ∀ x ∈ op.apply q j, ∃ i, x ∈ q i)
    (hdown : ∀ j, ¬ op.inits up j → op.apply q j = [])
    (ht : L.Tracks (InQueues (op.inits up) q) m m' s) : L.Done up m q op m' := by
  refine ⟨⟨(hu.made h).mono (inQueues_mono hsub), fun j x hj => ?_, hdown, s,
    ht.mono (inQueues_mono hsub) m' (fun _ _ _ => rfl), hs⟩, fun x hx => ht.rest x hx.2.1 hx.1⟩
  obtain ⟨k, hk⟩ := hsub j x hj
  exact h.nonnull k x hk

/-- A queue with fewer elements. -/
theorem update_subset {es : List (BitVec 32)} (hes : ∀ x ∈ es, x ∈ q i) (j : ι) (x : BitVec 32)
    (hx : x ∈ Function.update q i es j) : ∃ k, x ∈ q k := by
  by_cases hji : j = i
  · subst hji
    rw [Function.update_self] at hx
    exact ⟨j, hes x hx⟩
  · rw [Function.update_of_ne hji] at hx
    exact ⟨j, hx⟩

/-- A removal, of the element behind `xs`. -/
theorem StailqLayout.Stailqs.removed (h : L.Stailqs up m q) {s : Store ι (BitVec 32)}
    (hs : Store.Holds s q) (ht : L.Tracks (InQueues up q) m m s) (hu : op.Usable L up q)
    (hi : up i) (hinits : op.inits up = up) (hq : q i = xs ++ e :: ys)
    (hop : op.apply q = Function.update q i (xs ++ ys))
    (hm : m' = if read32 m (stqeNext L.off e) = 0#32 then
        write32 (write32 m (L.cell (endCell (.first i) xs)) (read32 m (stqeNext L.off e)))
          (stqhLast (L.head i)) (L.cell (endCell (.first i) xs))
      else write32 m (L.cell (endCell (.first i) xs)) (read32 m (stqeNext L.off e))) :
    L.Done up m q op m' := by
  have hq' : q i = (xs ++ [e]) ++ ys := by rw [hq, List.append_assoc, List.singleton_append]
  have hnull := h.link_ne hs hq'
  rw [endCell_concat] at hnull
  have hrun := ht.removeAt (i := i) h.separate hi (inQueues_endCell hi hq)
    ⟨i, by rw [hq]; simp⟩ hnull
  rw [← hm] at hrun
  have hs' := hs.removeAt hq
  rw [← hop] at hs'
  refine h.changed hu hs' (fun j x hx => ?_) (fun j hj => ?_) (by rw [hinits]; exact hrun)
  on_goal 2 =>
    rw [hinits] at hj
    rw [hop]
    exact update_down h.down hi _ j hj
  rw [hop] at hx
  refine update_subset (fun y hy => ?_) j x hx
  rw [hq]
  rcases List.mem_append.mp hy with hy | hy
  · exact List.mem_append_left _ hy
  · exact List.mem_append_right _ (List.mem_cons_of_mem e hy)

omit [DecidableEq ι] in
/-- `STAILQ_REMOVE` of an element that is there: which element is skipped, and how far the loop
    has to go. -/
theorem StailqLayout.Stailqs.remove_eq (h : L.Stailqs up m q) (hi : up i)
    (hq : q i = xs ++ e :: ys)
    (he : e ∉ xs) (n : Nat) : stailqRemove L.off m n (L.head i) e =
      if xs.length ≤ n then some
        (if read32 m (stqeNext L.off e) = 0#32 then
          write32 (write32 m (L.cell (endCell (.first i) xs)) (read32 m (stqeNext L.off e)))
            (stqhLast (L.head i)) (L.cell (endCell (.first i) xs))
        else write32 m (L.cell (endCell (.first i) xs)) (read32 m (stqeNext L.off e)))
      else none := by
  obtain ⟨s, ht, hs⟩ := h.store
  have hchain := hs.chain i
  have hfirst : stailqFirst m (L.head i) = elmPtr (s.link (.first i)) := ht.link (.first i) hi
  rw [hq] at hchain
  unfold stailqRemove
  cases xs with
  | nil =>
    have hlen : ([] : List (BitVec 32)).length ≤ n := Nat.zero_le n
    rw [hfirst, (linked_cons.mp hchain).1, elmPtr, if_pos rfl, if_pos hlen]
    unfold stailqRemoveHead
    rw [hfirst, (linked_cons.mp hchain).1, elmPtr]
    rfl
  | cons x xs =>
    obtain ⟨hlink, hrest⟩ := linked_cons.mp hchain
    rw [List.mem_cons, not_or] at he
    have hused : ∀ y ∈ x :: xs, InQueues up q (.next y) := fun y hy =>
      ⟨i, by rw [hq]; exact List.mem_append_left _ hy⟩
    rw [hfirst, hlink, elmPtr, if_neg (Ne.symm he.1), ht.before hrest hused he.2]
    by_cases hlen : xs.length < n
    · rw [if_pos hlen, if_pos (by rw [List.length_cons]; omega)]
      -- the element before `e`
      obtain ⟨zs, z, hz⟩ : ∃ zs z, x :: xs = zs ++ [z] :=
        ⟨(x :: xs).dropLast, (x :: xs).getLast (by simp), (List.dropLast_append_getLast _).symm⟩
      have hnext : stailqNext L.off m z = e := by
        have hzi : InQueues up q (.next z) := hused z (by rw [hz]; simp)
        have hread : stailqNext L.off m z = elmPtr (s.link (.next z)) := ht.link (.next z) hzi
        rw [hz, linked_append, endCell_concat] at hchain
        rw [hread, (linked_cons.mp hchain.2).1, elmPtr]
      rw [hz, List.getLast?_concat, Option.map_some, endCell_concat]
      unfold stailqRemoveAfter
      rw [hnext]
      rfl
    · rw [if_neg hlen, if_neg (by rw [List.length_cons]; omega)]
      rfl

/-- **One macro.** -/
theorem StailqOp.exec_done (h : L.Stailqs up m q) (hu : op.Usable L up q)
    (hex : op.exec L n m = some m') : L.Done up m q op m' := by
  obtain ⟨s, ht, hs⟩ := h.store
  cases op with
  | init i =>
    obtain rfl := Option.some.inj hex
    -- the head may be new: its queue is empty, and the others stay
    refine h.changed hu (hs.init i)
      (fun j x hx => update_subset (fun y hy => absurd hy (by simp)) j x hx) (fun j hj => ?_)
      (ht.init (hu.made h) fun d => ?_)
    · rw [show (StailqOp.init i).inits up j = (j = i ∨ up j) from rfl, not_or] at hj
      show Function.update q i [] j = []
      rw [Function.update_of_ne hj.1]
      exact h.down j hj.2
    · cases d with
      | first j => simp [InQueues, StailqOp.inits]
      | next e => simp [InQueues]
  | insertHead i e =>
    obtain rfl := Option.some.inj hex
    have hi : up i := hu.heads i List.mem_cons_self
    refine h.inserted hs hu hi rfl rfl (List.nil_append (q i)).symm rfl ?_
    exact ht.insertAt (hu.fresh e rfl).2.2 (fun _ => Iff.rfl) hi (c := .first i) hi
      (h.link_ne hs (List.nil_append (q i)).symm)
  | insertTail i e =>
    obtain rfl := Option.some.inj hex
    have hi : up i := hu.heads i List.mem_cons_self
    have hq : q i = q i ++ [] := (List.append_nil _).symm
    -- the cell at the end is that of the last element, or the head, and has no link
    have hnone : s.link (s.last i) = none := by
      rw [hs.last i]
      exact (hs.chain i).2
    have hc : InQueues up q (s.last i) := by
      rw [hs.last i]
      exact inQueues_endCell hi hq
    refine h.inserted hs hu hi rfl rfl hq rfl ?_
    rw [← hs.last i]
    exact ht.insertTail (hu.fresh e rfl).2.2 (fun _ => Iff.rfl) hi hc hnone
  | insertAfter i t e =>
    obtain rfl := Option.some.inj hex
    have hi : up i := hu.heads i List.mem_cons_self
    -- the queue around the element that the new one goes behind
    obtain ⟨xs, ys, hq, hxs⟩ := List.eq_append_cons_of_mem hu.there
    have hq' : q i = (xs ++ [t]) ++ ys := by rw [hq, List.append_assoc, List.singleton_append]
    have hop : (StailqOp.insertAfter i t e).apply q
        = Function.update q i ((xs ++ [t]) ++ e :: ys) := by
      show Function.update q i (insertBehind t e (q i)) = _
      rw [hq, insertBehind_append hxs, List.append_assoc, List.singleton_append]
    have hnull := h.link_ne hs hq'
    refine h.inserted hs hu hi rfl rfl hq' hop ?_
    rw [endCell_concat] at hnull ⊢
    exact ht.insertAt (hu.fresh e rfl).2.2 (fun _ => Iff.rfl) hi (c := .next t)
      ⟨i, by rw [hq]; simp⟩ hnull
  | removeHead i =>
    obtain rfl := Option.some.inj hex
    have hi : up i := hu.heads i List.mem_cons_self
    cases hq : q i with
    | nil => exact absurd hq hu.there
    | cons e ys =>
      have hchain := hs.chain i
      rw [hq] at hchain
      -- what `STAILQ_FIRST` reads is the element the head links to
      have hfirst : stailqFirst m (L.head i) = e := by
        have hread : stailqFirst m (L.head i) = elmPtr (s.link (.first i)) :=
          ht.link (.first i) hi
        rw [hread, (linked_cons.mp hchain).1, elmPtr]
      refine h.removed hs ht hu hi rfl (hq.trans (List.nil_append _).symm) ?_ ?_
      · show Function.update q i (q i).tail = _
        rw [hq]
        rfl
      · unfold stailqRemoveHead
        rw [hfirst]
        rfl
  | removeAfter i t =>
    obtain rfl := Option.some.inj hex
    have hi : up i := hu.heads i List.mem_cons_self
    obtain ⟨xs, e, ys, hq⟩ := hu.there
    -- no element is in the queue twice, so `t` is not further in front
    have hxs : t ∉ xs := by
      intro hmem
      have hnodup := hs.nodup i
      rw [hq] at hnodup
      exact (List.nodup_append.mp hnodup).2.2 t hmem t List.mem_cons_self rfl
    have hq' : q i = (xs ++ [t]) ++ e :: ys := by
      rw [hq, List.append_assoc, List.singleton_append]
    refine h.removed hs ht hu hi rfl hq' ?_ ?_
    · show Function.update q i (dropBehind t (q i)) = _
      rw [hq, dropBehind_append hxs, List.append_assoc, List.singleton_append]
      rfl
    · have hchain := hs.chain i
      rw [hq', linked_append, endCell_concat] at hchain
      -- what `STAILQ_NEXT` reads is the element `t` links to
      have hnext : stailqNext L.off m t = e := by
        have hread : stailqNext L.off m t = elmPtr (s.link (.next t)) :=
          ht.link (.next t) ⟨i, by rw [hq]; simp⟩
        rw [hread, (linked_cons.mp hchain.2).1, elmPtr]
      unfold stailqRemoveAfter
      rw [hnext, endCell_concat]
      rfl
  | remove i e =>
    have hi : up i := hu.heads i List.mem_cons_self
    obtain ⟨xs, ys, hq, hxs⟩ := List.eq_append_cons_of_mem hu.there
    -- `STAILQ_REMOVE` is `STAILQ_REMOVE_AFTER`, behind a search that needs rounds enough
    have hrun := h.remove_eq hi hq hxs n
    rw [show stailqRemove L.off m n (L.head i) e = some m' from hex] at hrun
    split at hrun
    · refine h.removed hs ht hu hi rfl hq ?_ (Option.some.inj hrun)
      show Function.update q i ((q i).erase e) = _
      rw [hq, List.erase_append_right _ hxs, List.erase_cons_head]
    · exact absurd hrun (by simp)
  | concat i j =>
    obtain rfl := Option.some.inj hex
    have hi : up i := hu.heads i List.mem_cons_self
    have hj : up j := hu.heads j (List.mem_cons_of_mem i List.mem_cons_self)
    have hij : i ≠ j := hu.there
    have hc : InQueues up q (s.last i) := by
      rw [hs.last i]
      exact inQueues_endCell hi (List.append_nil _).symm
    refine h.changed hu (hs.concat hij) (fun k x hx => ?_)
      (update_down (update_down h.down hj []) hi (q i ++ q j))
      (ht.concat h.separate hi hc hj (h.link_ne hs (List.nil_append (q j)).symm))
    -- what is in a queue now was in one of the two
    change x ∈ Function.update (Function.update q j []) i (q i ++ q j) k at hx
    by_cases hki : k = i
    · subst hki
      rw [Function.update_self, List.mem_append] at hx
      rcases hx with hx | hx
      · exact ⟨k, hx⟩
      · exact ⟨j, hx⟩
    · rw [Function.update_of_ne hki] at hx
      exact update_subset (fun y hy => absurd hy (by simp)) k x hx
  | swap i j =>
    obtain rfl := Option.some.inj hex
    have hi : up i := hu.heads i List.mem_cons_self
    have hj : up j := hu.heads j (List.mem_cons_of_mem i List.mem_cons_self)
    refine h.changed hu (hs.swap hu.there) (fun k x hx => ⟨_, hx⟩) (fun k hk => ?_)
      (ht.swap h.separate hu.there hi hj fun k => h.link_ne hs (List.nil_append (q k)).symm)
    -- heads that are not initialised are neither of the two
    have hki : k ≠ i := fun heq => hk (heq ▸ hi)
    have hkj : k ≠ j := fun heq => hk (heq ▸ hj)
    show q (Equiv.swap i j k) = []
    rw [Equiv.swap_apply_of_ne_of_ne hki hkj]
    exact h.down k hk

omit [DecidableEq ι] in
/-- A macro can be used: with rounds enough for the queue its loop ends. -/
theorem StailqOp.exec_some (h : L.Stailqs up m q) (hu : op.Usable L up q) :
    ∃ n₀, ∀ n, n₀ ≤ n → ∃ m', op.exec L n m = some m' := by
  cases op with
  | remove i e =>
    obtain ⟨xs, ys, hq, hxs⟩ := List.eq_append_cons_of_mem hu.there
    refine ⟨xs.length, fun n hn => ?_⟩
    show ∃ m', stailqRemove L.off m n (L.head i) e = some m'
    rw [h.remove_eq (hu.heads i List.mem_cons_self) hq hxs n, if_pos hn]
    exact ⟨_, rfl⟩
  | init | insertHead | insertTail | insertAfter | removeHead | removeAfter | concat | swap =>
    exact ⟨0, fun n _ => ⟨_, rfl⟩⟩

/-- What can be read off the memory is what the lists say. -/
structure StailqLayout.Observed (L : StailqLayout ι) (m : Mem) (q : ι → List (BitVec 32)) (i : ι) :
    Prop where
  empty : stailqEmpty m (L.head i) = (q i).isEmpty
  first : stailqFirst m (L.head i) = elmPtr (q i).head?
  last : stailqLast L.off m (L.head i) = elmPtr (q i).getLast?
  next : ∀ xs e ys, q i = xs ++ e :: ys → stailqNext L.off m e = elmPtr ys.head?
  foreach : ∀ n, stailqForeach L.off m n (stailqFirst m (L.head i))
    = if (q i).length ≤ n then some (q i) else none

omit [DecidableEq ι] in
theorem StailqLayout.Stailqs.observed (h : L.Stailqs up m q) (i : ι) (hi : up i) :
    L.Observed m q i := by
  obtain ⟨s, ht, hs⟩ := h.store
  have hlink : read32 m (L.head i) = elmPtr (s.link (.first i)) := ht.link (.first i) hi
  have hfirst : stailqFirst m (L.head i) = elmPtr (q i).head? := by
    rw [stailqFirst, hlink, (hs.chain i).head]
  have hempty : stailqEmpty m (L.head i) = (q i).isEmpty := by
    unfold stailqEmpty
    rw [hfirst]
    cases hq : q i with
    | nil => rfl
    | cons e es => simp [elmPtr, h.nonnull i e (by rw [hq]; exact List.mem_cons_self)]
  refine ⟨hempty, hfirst, ?_, fun xs e ys hq => ?_, fun n => ?_⟩
  · unfold stailqLast
    rw [hempty]
    rcases List.eq_nil_or_concat (q i) with hq | ⟨xs, e, hq⟩
    · rw [hq]
      rfl
    · rw [List.concat_eq_append] at hq
      rw [if_neg (by simp [hq]), ht.last i hi, hs.last i, hq, endCell_concat,
        List.getLast?_concat]
      show e + L.off - L.off = e
      rw [BitVec.add_sub_cancel]
  · have hchain := hs.chain i
    rw [hq, linked_append, linked_cons] at hchain
    have hread : stailqNext L.off m e = elmPtr (s.link (.next e)) :=
      ht.link (.next e) ⟨i, by rw [hq]; simp⟩
    rw [hread, hchain.2.2.head]
  · rw [stailqFirst, hlink]
    exact ht.foreach (hs.chain i) (fun x hx => ⟨i, hx⟩) (h.nonnull i) n

/-- An element of the queues was there at first or is new. -/
theorem StailqOp.apply_mem (hu : op.Usable L up q) {j : ι} {x : BitVec 32} (hx : x ∈ op.apply q j) :
    (∃ i, x ∈ q i) ∨ op.new? = some x := by
  have hins : ∀ {i : ι} {e : BitVec 32} {xs ys : List (BitVec 32)}, q i = xs ++ ys →
      x ∈ Function.update q i (xs ++ e :: ys) j → (∃ i, x ∈ q i) ∨ e = x := by
    intro i e xs ys hq hx
    rcases (inQueues_insert up (e := e) hq (.next x)).mp ⟨j, hx⟩ with h | h
    · exact Or.inr (Cell.next.inj h).symm
    · exact Or.inl h
  cases op with
  | init i => exact Or.inl (update_subset (fun y hy => absurd hy (by simp)) j x hx)
  | insertHead i e =>
    exact (hins (List.nil_append (q i)).symm hx).imp_right fun h => congrArg some h
  | insertTail i e =>
    exact (hins (List.append_nil (q i)).symm hx).imp_right fun h => congrArg some h
  | insertAfter i t e =>
    obtain ⟨xs, ys, hq, hxs⟩ := List.eq_append_cons_of_mem hu.there
    change x ∈ Function.update q i (insertBehind t e (q i)) j at hx
    rw [hq, insertBehind_append hxs, List.append_cons] at hx
    refine (hins ?_ hx).imp_right fun h => congrArg some h
    rw [hq, List.append_assoc, List.singleton_append]
  | removeHead i => exact Or.inl (update_subset (fun y hy => List.mem_of_mem_tail hy) j x hx)
  | removeAfter i t => exact Or.inl (update_subset (fun y hy => mem_of_mem_dropBehind hy) j x hx)
  | remove i e => exact Or.inl (update_subset (fun y hy => List.mem_of_mem_erase hy) j x hx)
  | concat i k =>
    change x ∈ Function.update (Function.update q k []) i (q i ++ q k) j at hx
    by_cases hji : j = i
    · subst hji
      rw [Function.update_self, List.mem_append] at hx
      exact Or.inl (hx.elim (fun h => ⟨j, h⟩) fun h => ⟨k, h⟩)
    · rw [Function.update_of_ne hji] at hx
      exact Or.inl (update_subset (fun y hy => absurd hy (by simp)) j x hx)
  | swap i k => exact Or.inl ⟨_, hx⟩

/-- What a run keeps: memory holds the queues, their elements are those of the beginning and those
    that are new, and the rest of memory is as it was. -/
structure StailqLayout.Kept (L : StailqLayout ι) (s₀ : StailqState ι) (tr : List (StailqOp ι))
    (s : StailqState ι) : Prop where
  up : ∀ i, s.up i ↔ s₀.up i ∨ StailqOp.init i ∈ tr
  holds : L.Stailqs s.up s.mem s.lists
  elements : ∀ i, ∀ x ∈ s.lists i, (∃ j, x ∈ s₀.lists j) ∨ ∃ op ∈ tr, op.new? = some x
  rest : ∀ x, (∀ i, s.up i → ¬ InRange x (L.head i) 4 ∧ ¬ InRange x (stqhLast (L.head i)) 4) →
    (∀ e, (∃ j, e ∈ s₀.lists j) ∨ (∃ op ∈ tr, op.new? = some e) →
      ¬ InRange x (stqeNext L.off e) 4) → s.mem x = s₀.mem x

omit [DecidableEq ι] in
/-- What is initialised stays so, and only `STAILQ_INIT` adds to it. -/
theorem StailqOp.inits_iff : op.inits up i ↔ up i ∨ op = .init i := by
  cases op with
  | init j =>
    show i = j ∨ up i ↔ _
    rw [or_comm, StailqOp.init.injEq, eq_comm]
  | insertHead | insertTail | insertAfter | removeHead | removeAfter | remove | concat | swap =>
    exact (or_iff_left nofun).symm

theorem StailqStep.kept {s₀ s s' : StailqState ι} {tr : List (StailqOp ι)} (h : L.Kept s₀ tr s)
    (hstep : StailqStep L s op s') : L.Kept s₀ (tr ++ [op]) s' := by
  obtain ⟨hu, hup, hq, n, hex⟩ := hstep
  have hdone := StailqOp.exec_done h.holds hu hex
  refine ⟨fun i => ?_, ?_, fun i x hx => ?_, fun x hheads hlinks => ?_⟩
  · rw [hup, StailqOp.inits_iff, h.up, or_assoc, List.mem_append, List.mem_singleton,
      eq_comm (a := op)]
  · rw [hup, hq]
    exact hdone.holds
  · rw [hq] at hx
    rcases StailqOp.apply_mem hu hx with ⟨j, hj⟩ | hnew
    · exact (h.elements j x hj).imp_right fun ⟨o, ho, hn⟩ =>
        ⟨o, List.mem_append_left _ ho, hn⟩
    · exact Or.inr ⟨op, by simp, hnew⟩
  · rw [hup] at hheads
    have hbefore := h.rest x (fun i hi => hheads i (StailqOp.inits_iff.mpr (Or.inl hi))) fun e he =>
      hlinks e (he.imp_right fun ⟨o, ho, hn⟩ => ⟨o, List.mem_append_left _ ho, hn⟩)
    rw [← hbefore]
    refine hdone.rest x ⟨fun i hi => (hheads i hi).2, fun c hc => ?_, fun e he => ?_⟩
    · cases c with
      | first i => exact (hheads i hc).1
      | next e =>
        obtain ⟨i, hi⟩ := hc
        exact hlinks e ((h.elements i e hi).imp_right fun ⟨o, ho, hn⟩ =>
          ⟨o, List.mem_append_left _ ho, hn⟩)
    · exact hlinks e (Or.inr ⟨op, by simp, he⟩)

/-- **Tail queues are lists.**  Any number of heads, any elements, any sequence of the macros that
    initialises a head before it uses it: at every point memory holds the lists that the operations
    stand for.  The heads and the loops over them say what the lists are, every macro that may be
    used next ends, and no other byte of memory has changed. -/
theorem stailq_refines {s₀ s : StailqState ι} {tr : List (StailqOp ι)}
    (h₀ : L.Stailqs s₀.up s₀.mem s₀.lists) (hrun : Run (StailqStep L) s₀ tr s) :
    (∀ i, s.up i ↔ s₀.up i ∨ StailqOp.init i ∈ tr) ∧
    (∀ i, s.up i → L.Observed s.mem s.lists i) ∧
    (∀ op : StailqOp ι, op.Usable L s.up s.lists →
      ∃ n₀, ∀ n, n₀ ≤ n → ∃ m', op.exec L n s.mem = some m') ∧
    ∀ x, (∀ i, s.up i → ¬ InRange x (L.head i) 4 ∧ ¬ InRange x (stqhLast (L.head i)) 4) →
      (∀ e, (∃ j, e ∈ s₀.lists j) ∨ (∃ op ∈ tr, op.new? = some e) →
        ¬ InRange x (stqeNext L.off e) 4) → s.mem x = s₀.mem x := by
  have hkept : L.Kept s₀ tr s := hrun.invariant
    ⟨fun i => by simp, h₀, fun i x hx => Or.inl ⟨i, hx⟩, fun _ _ _ => rfl⟩
    fun _ _ _ _ h hs => hs.kept h
  exact ⟨hkept.up, hkept.holds.observed,
    fun op hu => op.exec_some hkept.holds hu, hkept.rest⟩

omit [DecidableEq ι] in
/-- Heads that were initialised, and nothing in their queues. -/
theorem StailqLayout.stailqs_empty (hsep : L.Separate (InQueues up fun _ => []))
    (hinit : ∀ i, up i →
      stailqFirst m (L.head i) = 0#32 ∧ read32 m (stqhLast (L.head i)) = L.head i) :
    L.Stailqs up m fun _ => [] := by
  refine ⟨hsep, fun _ e he => absurd he (by simp), fun _ _ => rfl, ⟨fun _ => none, .first⟩, ?_, ?_⟩
  · refine ⟨fun c hc => ?_, fun i hi => (hinit i hi).2, fun _ _ _ => rfl⟩
    cases c with
    | first i => exact (hinit i hc).1
    | next e =>
      obtain ⟨_, he⟩ := hc
      exact absurd he (by simp)
  · exact ⟨fun _ => linked_nil.mpr rfl, fun _ => rfl, fun _ => List.nodup_nil,
      fun _ _ _ e he => absurd he (by simp)⟩

omit [DecidableEq ι] in
/-- Aligned words overlap only if they are one. -/
theorem StailqLayout.separate_of_aligned {used : Cell ι (BitVec 32) → Prop}
    (hhead : ∀ i, (L.head i).toNat % 4 = 0 ∧ (stqhLast (L.head i)).toNat % 4 = 0)
    (hnext : ∀ e, used (.next e) → (stqeNext L.off e).toNat % 4 = 0)
    (hinj : ∀ c d, used c → used d → L.cell c = L.cell d → c = d)
    (hlasts : ∀ i j, L.head i = L.head j → i = j)
    (hboth : ∀ i c, used c → L.cell c ≠ stqhLast (L.head i)) : L.Separate used := by
  have hcell : ∀ c, used c → (L.cell c).toNat % 4 = 0 := by
    intro c hc
    cases c with
    | first i => exact (hhead i).1
    | next e => exact hnext e hc
  refine ⟨fun c d hc hd hcd x hx => ?_, fun i j _ _ hij x hx => ?_, fun i c _ hc x hx => ?_⟩
  · exact disjoint_of_aligned (hcell d hd) (hcell c hc) (fun h => hcd (hinj c d hc hd h.symm)) hx
  · refine disjoint_of_aligned (hhead j).2 (hhead i).2 (fun h => hij (hlasts i j ?_)) hx
    exact ((BitVec.add_left_inj 4#32).mp h).symm
  · exact disjoint_of_aligned (hcell c hc) (hhead i).2 (hboth i c hc) hx

end Ops

/-! ### Two queues -/

/-- Two heads; the links are in the tenth words of the elements. -/
def twoHeads : StailqLayout Bool := ⟨fun b => if b then 0x1000#32 else 0x1010#32, 36#32⟩

theorem twoHeads_separate {used : Cell Bool (BitVec 32) → Prop}
    (hused : ∀ e, used (.next e) → e = 0x2000#32) : twoHeads.Separate used := by
  refine StailqLayout.separate_of_aligned (by decide) (fun e he => ?_) (fun c d hc hd h => ?_)
    (by decide) (fun i c hc => ?_)
  · rw [hused e he]
    decide
  · cases c with
    | first i =>
      cases d with
      | first j => cases i <;> cases j <;> first | rfl | exact absurd h (by decide)
      | next e => cases i <;> rw [hused e hd] at h <;> exact absurd h (by decide)
    | next e =>
      rw [hused e hc] at h ⊢
      cases d with
      | first j => cases j <;> exact absurd h (by decide)
      | next e' => rw [hused e' hd]
  · cases c with
    | first j => cases i <;> cases j <;> decide
    | next e =>
      rw [hused e hc]
      cases i <;> decide

/-- Memory that was used for something else. -/
def twoStart : StailqState Bool := ⟨fun _ => 0xa5#8, fun _ => False, fun _ => []⟩

/-- Both heads are initialised, an element is put into one queue, and that is moved to the end of
    the other. -/
def twoOps : List (StailqOp Bool) :=
  [.init true, .init false, .insertTail true 0x2000#32, .concat false true]

/-- The state after a macro without a loop. -/
def StailqOp.next (op : StailqOp Bool) (s : StailqState Bool) : StailqState Bool :=
  ⟨(op.exec twoHeads 0 s.mem).getD s.mem, op.inits s.up, op.apply s.lists⟩

theorem twoStart_stailqs : twoHeads.Stailqs twoStart.up twoStart.mem twoStart.lists := by
  refine StailqLayout.stailqs_empty (twoHeads_separate fun e he => ?_) fun i hi => hi.elim
  obtain ⟨_, he⟩ := he
  exact absurd he (by simp)

theorem stailq_refines_demo : ∃ s, Run (StailqStep twoHeads) twoStart twoOps s ∧
    s.lists false = [0x2000#32] ∧ stailqFirst s.mem 0x1010#32 = 0x2000#32 ∧
      stailqEmpty s.mem 0x1000#32 = true := by
  let s₁ := (StailqOp.init true).next twoStart
  let s₂ := (StailqOp.init false).next s₁
  let s₃ := (StailqOp.insertTail true 0x2000#32).next s₂
  let s₄ := (StailqOp.concat false true).next s₃
  have hnone : ∀ {up : Bool → Prop} {q : Bool → List (BitVec 32)}, (∀ i, q i = []) →
      twoHeads.Separate (InQueues up q) := fun hq => twoHeads_separate fun e he => by
    obtain ⟨i, he⟩ := he
    rw [hq i] at he
    exact absurd he (by simp)
  have h₁ : StailqStep twoHeads twoStart (.init true) s₁ :=
    ⟨⟨nofun, nofun, hnone fun _ => rfl⟩, rfl, rfl, 0, rfl⟩
  have h₂ : StailqStep twoHeads s₁ (.init false) s₂ :=
    ⟨⟨nofun, nofun, hnone (by decide)⟩, rfl, rfl, 0, rfl⟩
  have h₃ : StailqStep twoHeads s₂ (.insertTail true 0x2000#32) s₃ := by
    refine ⟨⟨fun i hi => ?_, ?_, trivial⟩, rfl, rfl, 0, rfl⟩
    · obtain rfl := List.mem_singleton.mp hi
      exact Or.inr (Or.inl rfl)
    · rintro e ⟨⟩
      refine ⟨by decide, by decide, twoHeads_separate fun e he => ?_⟩
      rcases he with he | ⟨i, he⟩
      · exact Cell.next.inj he
      · have hq : ∀ i, s₂.lists i = [] := by decide
        rw [hq i] at he
        exact absurd he (by simp)
  have h₄ : StailqStep twoHeads s₃ (.concat false true) s₄ := by
    refine ⟨⟨fun i hi => ?_, nofun, Bool.false_ne_true⟩, rfl, rfl, 0, rfl⟩
    cases i
    · exact Or.inl rfl
    · exact Or.inr (Or.inl rfl)
  have hrun : Run (StailqStep twoHeads) twoStart ([] ++ [_] ++ [_] ++ [_] ++ [_]) s₄ :=
    (((Run.start.next h₁).next h₂).next h₃).next h₄
  obtain ⟨hup, hobs, -⟩ := stailq_refines twoStart_stailqs hrun
  have hfalse := hobs false ((hup false).mpr (by simp))
  have htrue := hobs true ((hup true).mpr (by simp))
  exact ⟨s₄, hrun, rfl, hfalse.first, htrue.empty⟩

end Leoman
