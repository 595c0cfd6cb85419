import Mathlib.Data.List.Nodup
import Mathlib.Logic.Equiv.Basic

namespace Leoman.LinkCells

/-!
# Linked queues with a pointer to their end

A queue is linked through cells: one for its first element and one inside every element.  It also
has a pointer to the cell behind its last element, so that both ends are at hand.

* `Linked` — from a cell on, the elements are linked and nothing follows them;
* `Store`, `Store.Holds` — the links and end pointers of any number of queues, and the lists they
  stand for;
* `Store.Holds.insertAt`, `Store.Holds.removeAt`, `Store.Holds.concat`, `Store.Holds.swap` — what
  changing two or three cells does to the lists.
-/

variable {ι α : Type}

/-! ### Chains -/

/-- A cell with a link: that of the first element of the queue `i`, or that inside the element
    `e`. -/
inductive Cell (ι α : Type) where
  | first (i : ι)
  | next (e : α)
deriving DecidableEq

/-- A head is no element. -/
theorem first_ne_next (i : ι) (e : α) : (.first i : Cell ι α) ≠ .next e := nofun

/-- The cell behind the elements, from the cell `c` on. -/
def endCell (c : Cell ι α) : List α → Cell ι α
  | [] => c
  | e :: es => endCell (.next e) es

/-- From the cell `c` on the elements are linked one behind the other. -/
def Links (link : Cell ι α → Option α) (c : Cell ι α) : List α → Prop
  | [] => True
  | e :: es => link c = some e ∧ Links link (.next e) es

/-- And nothing follows them. -/
def Linked (link : Cell ι α → Option α) (c : Cell ι α) (es : List α) : Prop :=
  Links link c es ∧ link (endCell c es) = none

section Linked

variable {link link' : Cell ι α → Option α} {c d : Cell ι α} {e : α} {xs ys es : List α}

/-- The end of two rows is the end of the second, from the end of the first. -/
theorem endCell_append (c : Cell ι α) (xs ys : List α) :
    endCell c (xs ++ ys) = endCell (endCell c xs) ys := by
  induction xs generalizing c with
  | nil => rfl
  | cons x xs ih => exact ih (.next x)

/-- The cell behind some elements is in the last of them. -/
theorem endCell_concat (c : Cell ι α) (xs : List α) (e : α) : endCell c (xs ++ [e]) = .next e := by
  rw [endCell_append]
  rfl

/-- A row ends at its last element, or where it begins if it has none. -/
theorem endCell_cases (c : Cell ι α) (es : List α) :
    es = [] ∧ endCell c es = c ∨ ∃ e ∈ es, endCell c es = .next e := by
  induction es generalizing c with
  | nil => exact Or.inl ⟨rfl, rfl⟩
  | cons e es ih =>
    right
    rcases ih (.next e) with ⟨rfl, h⟩ | ⟨x, hx, h⟩
    · exact ⟨e, List.mem_cons_self, h⟩
    · exact ⟨x, List.mem_cons_of_mem e hx, h⟩

/-- Links of two parts, and the seam. -/
theorem links_append :
    Links link c (xs ++ ys) ↔ Links link c xs ∧ Links link (endCell c xs) ys := by
  induction xs generalizing c with
  | nil => simp [Links, endCell]
  | cons x xs ih => simp [Links, endCell, ih, and_assoc]

/-- A list without elements: the cell has no link. -/
theorem linked_nil : Linked link c [] ↔ link c = none := by simp [Linked, Links, endCell]

/-- A list begins with the element that its cell links to. -/
theorem linked_cons : Linked link c (e :: es) ↔ link c = some e ∧ Linked link (.next e) es := by
  simp [Linked, Links, endCell, and_assoc]

/-- A list in two parts: the first is linked up to its end, and the second is a list from there. -/
theorem linked_append :
    Linked link c (xs ++ ys) ↔ Links link c xs ∧ Linked link (endCell c xs) ys := by
  rw [Linked, links_append, endCell_append, Linked, and_assoc]

/-- A chain hangs on its first link. -/
theorem Linked.head (h : Linked link c es) : link c = es.head? := by
  cases es with
  | nil => exact linked_nil.mp h
  | cons e es => exact (linked_cons.mp h).1

/-- A chain may hang from another cell. -/
theorem Linked.hang (h : Linked link c es) (hd : link' d = link c)
    (hnext : ∀ e ∈ es, link' (.next e) = link (.next e)) : Linked link' d es := by
  induction es generalizing c d with
  | nil =>
    rw [linked_nil] at h ⊢
    exact hd.trans h
  | cons e es ih =>
    rw [linked_cons] at h ⊢
    exact ⟨hd.trans h.1, ih h.2 (hnext e List.mem_cons_self) fun x hx =>
      hnext x (List.mem_cons_of_mem e hx)⟩

/-- Linked elements do not depend on the cell behind them. -/
theorem Links.congr (h : Links link c es) (hc : es ≠ [] → link' c = link c)
    (hnext : ∀ e ∈ es, .next e ≠ endCell c es → link' (.next e) = link (.next e))
    (hnodup : es.Nodup) : Links link' c es := by
  induction es generalizing c with
  | nil => exact trivial
  | cons e es ih =>
    obtain ⟨he, hes⟩ := h
    obtain ⟨hmem, hnodup⟩ := List.nodup_cons.mp hnodup
    refine ⟨(hc (by simp)).trans he, ih hes (fun hne => hnext e List.mem_cons_self ?_)
      (fun x hx => hnext x (List.mem_cons_of_mem e hx)) hnodup⟩
    -- the cell of `e` is the last one only if nothing follows
    intro heq
    rcases endCell_cases (.next e : Cell ι α) es with ⟨rfl, -⟩ | ⟨x, hx, hend⟩
    · exact hne rfl
    · obtain rfl : e = x := Cell.next.inj (heq.trans hend)
      exact hmem hx

end Linked

/-! ### Stores -/

/-- The links and the end pointers of the queues. -/
structure Store (ι α : Type) where
  link : Cell ι α → Option α
  last : ι → Cell ι α

/-- The lists the queues stand for; no element is in two places. -/
structure Store.Holds (s : Store ι α) (q : ι → List α) : Prop where
  chain : ∀ i, Linked s.link (.first i) (q i)
  last : ∀ i, s.last i = endCell (.first i) (q i)
  nodup : ∀ i, (q i).Nodup
  once : ∀ i j, i ≠ j → ∀ e ∈ q i, e ∉ q j

section Store

variable [DecidableEq ι] [DecidableEq α] {s : Store ι α} {q : ι → List α} {i j : ι} {e : α}
  {xs ys : List α}

/-- Write a link. -/
def Store.setLink (s : Store ι α) (c : Cell ι α) (v : Option α) : Store ι α :=
  { s with link := Function.update s.link c v }

/-- Write an end pointer. -/
def Store.setLast (s : Store ι α) (i : ι) (c : Cell ι α) : Store ι α :=
  { s with last := Function.update s.last i c }

/-- `setLink` sets one link, … -/
@[simp] theorem setLink_link (s : Store ι α) (c : Cell ι α) (v : Option α) :
    (s.setLink c v).link = Function.update s.link c v := rfl

/-- … and no end. -/
@[simp] theorem setLink_last (s : Store ι α) (c : Cell ι α) (v : Option α) :
    (s.setLink c v).last = s.last := rfl

omit [DecidableEq α] in
/-- `setLast` sets no link, … -/
@[simp] theorem setLast_link (s : Store ι α) (i : ι) (c : Cell ι α) :
    (s.setLast i c).link = s.link := rfl

omit [DecidableEq α] in
/-- … and one end. -/
@[simp] theorem setLast_last (s : Store ι α) (i : ι) (c : Cell ι α) :
    (s.setLast i c).last = Function.update s.last i c := rfl

/-- Empty a queue. -/
def Store.init (s : Store ι α) (i : ι) : Store ι α :=
  (s.setLink (.first i) none).setLast i (.first i)

/-- Put `e` where the cell `c` of the queue `i` points to, before what is there. -/
def Store.insertAt (s : Store ι α) (i : ι) (c : Cell ι α) (e : α) : Store ι α :=
  let s₁ := s.setLink (.next e) (s.link c)
  (if s.link c = none then s₁.setLast i (.next e) else s₁).setLink c (some e)

/-- Take `e`, which the cell `c` of the queue `i` points to, out of it. -/
def Store.removeAt (s : Store ι α) (i : ι) (c : Cell ι α) (e : α) : Store ι α :=
  let s₁ := s.setLink c (s.link (.next e))
  if s.link (.next e) = none then s₁.setLast i c else s₁

/-- Move all of `j` behind `i`. -/
def Store.concat (s : Store ι α) (i j : ι) : Store ι α :=
  if s.link (.first j) = none then s
  else ((s.setLink (s.last i) (s.link (.first j))).setLast i (s.last j)).init j

/-- Point an end pointer to the queue's own first cell if the queue is empty. -/
def Store.mend (s : Store ι α) (i : ι) : Store ι α :=
  if s.link (.first i) = none then s.setLast i (.first i) else s

/-- Exchange two queues. -/
def Store.swap (s : Store ι α) (i j : ι) : Store ι α :=
  ((((s.setLink (.first i) (s.link (.first j))).setLast i (s.last j)).setLink (.first j)
    (s.link (.first i))).setLast j (s.last i)).mend i |>.mend j

omit [DecidableEq α] in
/-- A queue changes, and the others are left alone. -/
theorem Store.Holds.update {s' : Store ι α} {es : List α} (h : Store.Holds s q)
    (hchain : Linked s'.link (.first i) es) (hlast : s'.last i = endCell (.first i) es)
    (hnodup : es.Nodup) (hnew : ∀ e ∈ es, ∀ j, j ≠ i → e ∉ q j)
    (hothers : ∀ j, j ≠ i → s'.link (.first j) = s.link (.first j) ∧ s'.last j = s.last j ∧
      ∀ e ∈ q j, s'.link (.next e) = s.link (.next e)) :
    Store.Holds s' (Function.update q i es) := by
  refine ⟨fun j => ?_, fun j => ?_, fun j => ?_, fun j k hjk e hj hk => ?_⟩
  · by_cases hj : j = i
    · subst hj
      rw [Function.update_self]
      exact hchain
    · rw [Function.update_of_ne hj]
      exact (h.chain j).hang (hothers j hj).1 (hothers j hj).2.2
  · by_cases hj : j = i
    · subst hj
      rw [Function.update_self]
      exact hlast
    · rw [Function.update_of_ne hj, (hothers j hj).2.1]
      exact h.last j
  · by_cases hj : j = i
    · subst hj
      rw [Function.update_self]
      exact hnodup
    · rw [Function.update_of_ne hj]
      exact h.nodup j
  · by_cases hji : j = i
    · subst hji
      rw [Function.update_self] at hj
      rw [Function.update_of_ne hjk.symm] at hk
      exact hnew e hj k hjk.symm hk
    · rw [Function.update_of_ne hji] at hj
      by_cases hki : k = i
      · subst hki
        rw [Function.update_self] at hk
        exact hnew e hk j hji hj
      · rw [Function.update_of_ne hki] at hk
        exact h.once j k hjk e hj hk

omit [DecidableEq ι] [DecidableEq α] in
/-- A cell of one queue is none of another. -/
theorem Store.Holds.endCell_ne (h : Store.Holds s q) (hq : q i = xs ++ ys) (hij : j ≠ i) :
    (endCell (.first i) xs : Cell ι α) ≠ .first j ∧ ∀ e ∈ q j, endCell (.first i) xs ≠ .next e := by
  rcases endCell_cases (.first i : Cell ι α) xs with ⟨-, hend⟩ | ⟨x, hx, hend⟩
  · rw [hend]
    exact ⟨fun heq => hij (Cell.first.inj heq).symm, fun _ _ => nofun⟩
  · rw [hend]
    refine ⟨nofun, fun e he heq => ?_⟩
    obtain rfl : x = e := Cell.next.inj heq
    refine h.once i j (Ne.symm hij) x ?_ he
    rw [hq]
    exact List.mem_append_left ys hx

omit [DecidableEq ι] [DecidableEq α] in
/-- Behind some elements is the cell of none of those that follow. -/
theorem Store.Holds.endCell_ne_next (h : Store.Holds s q) (hq : q i = xs ++ ys) {y : α}
    (hy : y ∈ ys) :
    (endCell (.first i) xs : Cell ι α) ≠ .next y := by
  rcases endCell_cases (.first i : Cell ι α) xs with ⟨-, hend⟩ | ⟨x, hx, hend⟩
  · rw [hend]
    exact nofun
  · rw [hend]
    rintro heq
    obtain rfl : x = y := Cell.next.inj heq
    have hnodup := h.nodup i
    rw [hq] at hnodup
    exact (List.nodup_append.mp hnodup).2.2 x hx x hy rfl

omit [DecidableEq ι] [DecidableEq α] in
/-- A longer list has the same end, unless nothing follows. -/
theorem endCell_of_ne_nil {c d : Cell ι α} (h : xs ≠ []) : endCell c xs = endCell d xs := by
  cases xs with
  | nil => exact absurd rfl h
  | cons x xs => rfl

/-- The links after an insertion: the new element takes over that of the cell, which links to it. -/
theorem insertAt_link (s : Store ι α) (i : ι) (c : Cell ι α) (e : α) : (s.insertAt i c e).link =
    Function.update (Function.update s.link (.next e) (s.link c)) c (some e) := by
  unfold Store.insertAt
  split <;> rfl

/-- The end moves when the cell had no link. -/
theorem insertAt_last (s : Store ι α) (i : ι) (c : Cell ι α) (e : α) : (s.insertAt i c e).last =
    if s.link c = none then Function.update s.last i (.next e) else s.last := by
  unfold Store.insertAt
  split <;> rfl

/-- The links after a removal: the cell takes over the one of the element. -/
theorem removeAt_link (s : Store ι α) (i : ι) (c : Cell ι α) (e : α) :
    (s.removeAt i c e).link = Function.update s.link c (s.link (.next e)) := by
  unfold Store.removeAt
  split <;> rfl

/-- The end moves back when the element was the last one. -/
theorem removeAt_last (s : Store ι α) (i : ι) (c : Cell ι α) (e : α) : (s.removeAt i c e).last =
    if s.link (.next e) = none then Function.update s.last i c else s.last := by
  unfold Store.removeAt
  split <;> rfl

/-- **Insertion** of a new element behind the elements `xs` of a queue. -/
theorem Store.Holds.insertAt (h : Store.Holds s q) (hq : q i = xs ++ ys) (he : ∀ j, e ∉ q j) :
    Store.Holds (s.insertAt i (endCell (.first i) xs) e) (Function.update q i (xs ++ e :: ys)) := by
  have hchain := h.chain i
  rw [hq, linked_append] at hchain
  obtain ⟨hlinks, hrest⟩ := hchain
  have hnodup := h.nodup i
  have hlast := h.last i
  rw [hq] at hnodup hlast
  have he' := he i
  rw [hq, List.mem_append] at he'
  -- the cell that will point to `e` is not the one in it
  have hcell : (endCell (.first i) xs : Cell ι α) ≠ .next e := by
    rcases endCell_cases (.first i : Cell ι α) xs with ⟨-, hend⟩ | ⟨x, hx, hend⟩
    · rw [hend]
      exact nofun
    · rw [hend]
      rintro heq
      obtain rfl : x = e := Cell.next.inj heq
      exact he' (Or.inl hx)
  refine h.update (linked_append.mpr ⟨hlinks.congr (fun hne => ?_) (fun x hx hne => ?_)
    (List.nodup_append.mp hnodup).1, linked_cons.mpr ⟨?_, hrest.hang ?_ fun y hy => ?_⟩⟩) ?_ ?_ ?_
    fun j hj => ?_
  · -- the first cell is another one
    have hfirst : (.first i : Cell ι α) ≠ endCell (.first i) xs := by
      rcases endCell_cases (.first i : Cell ι α) xs with ⟨rfl, -⟩ | ⟨x, -, hend⟩
      · exact absurd rfl hne
      · rw [hend]
        exact nofun
    rw [insertAt_link, Function.update_of_ne hfirst,
      Function.update_of_ne (first_ne_next i e)]
  · have hxe : (.next x : Cell ι α) ≠ .next e := by
      rintro heq
      obtain rfl : x = e := Cell.next.inj heq
      exact he' (Or.inl hx)
    rw [insertAt_link, Function.update_of_ne hne, Function.update_of_ne hxe]
  · rw [insertAt_link, Function.update_self]
  · rw [insertAt_link, Function.update_of_ne hcell.symm, Function.update_self]
  · have hye : (.next y : Cell ι α) ≠ .next e := by
      rintro heq
      obtain rfl : y = e := Cell.next.inj heq
      exact he' (Or.inr hy)
    rw [insertAt_link, Function.update_of_ne (h.endCell_ne_next hq hy).symm,
      Function.update_of_ne hye]
  · rw [insertAt_last, hrest.head, endCell_append]
    cases ys with
    | nil => exact Function.update_self ..
    | cons y ys =>
      rw [if_neg (by simp), hlast, endCell_append]
      rfl
  · rw [List.nodup_append, List.nodup_cons]
    obtain ⟨hxs, hys, hxy⟩ := List.nodup_append.mp hnodup
    refine ⟨hxs, ⟨fun h => he' (Or.inr h), hys⟩, fun x hx y hy => ?_⟩
    rcases List.mem_cons.mp hy with rfl | hy
    · rintro rfl
      exact he' (Or.inl hx)
    · exact hxy x hx y hy
  · intro x hx j hj
    rw [List.mem_append, List.mem_cons] at hx
    rcases hx with hx | rfl | hx
    · exact h.once i j (Ne.symm hj) x (by rw [hq]; exact List.mem_append_left ys hx)
    · exact he j
    · exact h.once i j (Ne.symm hj) x (by rw [hq]; exact List.mem_append_right xs hx)
  · obtain ⟨hne, hnext⟩ := h.endCell_ne hq hj
    refine ⟨?_, ?_, fun x hx => ?_⟩
    · rw [insertAt_link, Function.update_of_ne hne.symm,
        Function.update_of_ne (first_ne_next j e)]
    · rw [insertAt_last]
      split
      · exact Function.update_of_ne hj ..
      · rfl
    · have hxe : (.next x : Cell ι α) ≠ .next e := by
        rintro heq
        obtain rfl : x = e := Cell.next.inj heq
        exact he j hx
      rw [insertAt_link, Function.update_of_ne (hnext x hx).symm, Function.update_of_ne hxe]

/-- **Removal** of the element behind the elements `xs` of a queue. -/
theorem Store.Holds.removeAt (h : Store.Holds s q) (hq : q i = xs ++ e :: ys) :
    Store.Holds (s.removeAt i (endCell (.first i) xs) e) (Function.update q i (xs ++ ys)) := by
  have hchain := h.chain i
  rw [hq, linked_append, linked_cons] at hchain
  obtain ⟨hlinks, -, hrest⟩ := hchain
  have hnodup := h.nodup i
  have hlast := h.last i
  rw [hq] at hnodup hlast
  obtain ⟨hxs, hys, hxy⟩ := List.nodup_append.mp hnodup
  refine h.update (linked_append.mpr ⟨hlinks.congr (fun hne => ?_) (fun x hx hne => ?_) hxs,
    hrest.hang ?_ fun y hy => ?_⟩) ?_ ?_ ?_ fun j hj => ?_
  · have hfirst : (.first i : Cell ι α) ≠ endCell (.first i) xs := by
      rcases endCell_cases (.first i : Cell ι α) xs with ⟨rfl, -⟩ | ⟨x, -, hend⟩
      · exact absurd rfl hne
      · rw [hend]
        exact nofun
    rw [removeAt_link, Function.update_of_ne hfirst]
  · rw [removeAt_link, Function.update_of_ne hne]
  · rw [removeAt_link, Function.update_self]
  · rw [removeAt_link,
      Function.update_of_ne (h.endCell_ne_next hq (List.mem_cons_of_mem e hy)).symm]
  · rw [removeAt_last, hrest.head, endCell_append]
    cases ys with
    | nil => exact Function.update_self ..
    | cons y ys =>
      rw [if_neg (by simp), hlast, endCell_append]
      rfl
  · exact List.nodup_append.mpr ⟨hxs, (List.nodup_cons.mp hys).2, fun x hx y hy =>
      hxy x hx y (List.mem_cons_of_mem e hy)⟩
  · intro x hx j hj
    refine h.once i j (Ne.symm hj) x ?_
    rw [hq]
    rcases List.mem_append.mp hx with hx | hx
    · exact List.mem_append_left _ hx
    · exact List.mem_append_right _ (List.mem_cons_of_mem e hx)
  · obtain ⟨hne, hnext⟩ := h.endCell_ne hq hj
    refine ⟨?_, ?_, fun x hx => ?_⟩
    · rw [removeAt_link, Function.update_of_ne hne.symm]
    · rw [removeAt_last]
      split
      · exact Function.update_of_ne hj ..
      · rfl
    · rw [removeAt_link, Function.update_of_ne (hnext x hx).symm]

/-- **A new queue**, whatever was there. -/
theorem Store.Holds.init (h : Store.Holds s q) (i : ι) :
    Store.Holds (s.init i) (Function.update q i []) := by
  refine h.update ?_ ?_ List.nodup_nil (fun e he => absurd he (by simp)) fun j hj => ⟨?_, ?_, ?_⟩
  · exact linked_nil.mpr (Function.update_self ..)
  · exact Function.update_self ..
  · exact Function.update_of_ne (fun heq => hj (Cell.first.inj heq)) ..
  · exact Function.update_of_ne hj ..
  · exact fun e _ => Function.update_of_ne (first_ne_next i e).symm none s.link

/-- **Concatenation** of two queues. -/
theorem Store.Holds.concat (h : Store.Holds s q) (hij : i ≠ j) :
    Store.Holds (s.concat i j) (Function.update (Function.update q j []) i (q i ++ q j)) := by
  have hi := h.chain i
  have hj := h.chain j
  have hend : (endCell (.first i) (q i) : Cell ι α) ≠ .first j ∧
      ∀ e ∈ q j, endCell (.first i) (q i) ≠ .next e :=
    h.endCell_ne (List.append_nil _).symm hij.symm
  unfold Store.concat
  split
  · -- nothing to move
    rename_i hnone
    have hnil : q j = [] := by
      rw [hj.head] at hnone
      exact List.head?_eq_none_iff.mp hnone
    have hsame : Function.update (Function.update q j []) i (q i ++ q j) = q := by
      rw [hnil, List.append_nil, ← hnil, Function.update_eq_self, Function.update_eq_self]
    rw [hsame]
    exact h
  · rename_i hsome
    have hne : q j ≠ [] := by
      rintro hnil
      rw [hj.head, hnil] at hsome
      exact hsome rfl
    have hempty := h.init j
    have hlink : ((((s.setLink (s.last i) (s.link (.first j))).setLast i (s.last j)).init j).link)
        = Function.update (s.init j).link (s.last i) (s.link (.first j)) := by
      apply Function.update_comm
      rw [h.last i]
      exact hend.1
    have hlast : ((((s.setLink (s.last i) (s.link (.first j))).setLast i (s.last j)).init j).last)
        = Function.update (s.init j).last i (s.last j) := by
      exact Function.update_comm hij ..
    have hold : ∀ c : Cell ι α, c ≠ .first j → (s.init j).link c = s.link c := fun c hc =>
      Function.update_of_ne hc ..
    refine hempty.update ?_ ?_ ?_ ?_ fun k hk => ⟨?_, ?_, fun e he => ?_⟩
    · rw [hlink, h.last i, linked_append]
      refine ⟨hi.1.congr (fun hne' => ?_) (fun e he hne' => ?_) (h.nodup i),
        hj.hang ?_ fun e he => ?_⟩
      · have hfirst : (.first i : Cell ι α) ≠ endCell (.first i) (q i) := by
          rcases endCell_cases (.first i : Cell ι α) (q i) with ⟨hnil, -⟩ | ⟨x, -, hx⟩
          · exact absurd hnil hne'
          · rw [hx]
            exact first_ne_next i x
        rw [Function.update_of_ne hfirst, hold _ fun heq => hij (Cell.first.inj heq)]
      · rw [Function.update_of_ne hne', hold _ (first_ne_next j e).symm]
      · rw [Function.update_self]
      · rw [Function.update_of_ne (hend.2 e he).symm, hold _ (first_ne_next j e).symm]
    · rw [hlast, Function.update_self, h.last j, endCell_append]
      exact endCell_of_ne_nil hne
    · refine List.nodup_append.mpr ⟨h.nodup i, h.nodup j, fun x hx y hy hxy => ?_⟩
      exact h.once i j hij x hx (hxy ▸ hy)
    · intro e he k hk
      by_cases hkj : k = j
      · subst hkj
        rw [Function.update_self]
        simp
      · rw [Function.update_of_ne hkj]
        rcases List.mem_append.mp he with he | he
        · exact h.once i k (Ne.symm hk) e he
        · exact h.once j k (Ne.symm hkj) e he
    · have hk' : (.first k : Cell ι α) ≠ endCell (.first i) (q i) :=
        (h.endCell_ne (List.append_nil _).symm hk).1.symm
      rw [hlink, h.last i, Function.update_of_ne hk']
    · rw [hlast, Function.update_of_ne hk]
    · have hk' : (.next e : Cell ι α) ≠ endCell (.first i) (q i) := by
        by_cases hkj : k = j
        · subst hkj
          rw [Function.update_self] at he
          exact absurd he (by simp)
        · rw [Function.update_of_ne hkj] at he
          exact ((h.endCell_ne (List.append_nil _).symm hk).2 e he).symm
      rw [hlink, h.last i, Function.update_of_ne hk']

omit [DecidableEq α] in
/-- `mend` sets no link, … -/
theorem mend_link (s : Store ι α) (i : ι) : (s.mend i).link = s.link := by
  unfold Store.mend
  split <;> rfl

omit [DecidableEq α] in
/-- … and makes the end of an empty list its head. -/
theorem mend_last (s : Store ι α) (i k : ι) : (s.mend i).last k =
    if k = i ∧ s.link (.first i) = none then .first i else s.last k := by
  unfold Store.mend
  split
  · rename_i hnone
    by_cases hk : k = i
    · subst hk
      rw [if_pos ⟨rfl, hnone⟩]
      exact Function.update_self ..
    · rw [if_neg (fun h => hk h.1)]
      exact Function.update_of_ne hk ..
  · rename_i hsome
    rw [if_neg (fun h => hsome h.2)]

/-- `swap` exchanges the links of the two heads. -/
theorem swap_link (s : Store ι α) (i j : ι) : (s.swap i j).link =
    Function.update (Function.update s.link (.first i) (s.link (.first j))) (.first j)
      (s.link (.first i)) := by
  unfold Store.swap
  rw [mend_link, mend_link]
  rfl

/-- **Exchange** of two queues. -/
theorem Store.Holds.swap (h : Store.Holds s q) (hij : i ≠ j) :
    Store.Holds (s.swap i j) fun k => q (Equiv.swap i j k) := by
  have hfirst : (.first i : Cell ι α) ≠ .first j := fun heq => hij (Cell.first.inj heq)
  have hi : (s.swap i j).link (.first i) = s.link (.first j) := by
    rw [swap_link, Function.update_of_ne hfirst, Function.update_self]
  have hj : (s.swap i j).link (.first j) = s.link (.first i) := by
    rw [swap_link, Function.update_self]
  have hnext : ∀ e, (s.swap i j).link (.next e) = s.link (.next e) := by
    intro e
    rw [swap_link, Function.update_of_ne (first_ne_next j e).symm,
      Function.update_of_ne (first_ne_next i e).symm]
  refine ⟨fun k => ?_, fun k => ?_, fun k => h.nodup _, fun k l hkl => h.once _ _ ?_⟩
  · show Linked _ _ (q (Equiv.swap i j k))
    rcases eq_or_ne k i with rfl | hki
    · rw [Equiv.swap_apply_left]
      exact (h.chain j).hang hi fun e _ => hnext e
    rcases eq_or_ne k j with rfl | hkj
    · rw [Equiv.swap_apply_right]
      exact (h.chain i).hang hj fun e _ => hnext e
    · rw [Equiv.swap_apply_of_ne_of_ne hki hkj]
      refine (h.chain k).hang ?_ fun e _ => hnext e
      rw [swap_link, Function.update_of_ne (fun heq => hkj (Cell.first.inj heq)),
        Function.update_of_ne (fun heq => hki (Cell.first.inj heq))]
  · show _ = endCell (.first k) (q (Equiv.swap i j k))
    have hlast : (s.swap i j).last k = if k = j ∧ (s.swap i j).link (.first j) = none then .first j
        else if k = i ∧ (s.swap i j).link (.first i) = none then .first i
        else Function.update (Function.update s.last i (s.last j)) j (s.last i) k := by
      unfold Store.swap
      simp only [mend_last, mend_link]
      rfl
    rw [hlast, hi, hj, (h.chain i).head, (h.chain j).head]
    simp only [List.head?_eq_none_iff]
    rcases eq_or_ne k j with rfl | hkj
    · rw [Equiv.swap_apply_right, Function.update_self, h.last i]
      by_cases hnil : q i = []
      · rw [if_pos ⟨rfl, hnil⟩, hnil]
        rfl
      · rw [if_neg (fun h => hnil h.2), if_neg (fun h => hij h.1.symm)]
        exact endCell_of_ne_nil hnil
    rw [if_neg (fun h => hkj h.1), Function.update_of_ne hkj]
    rcases eq_or_ne k i with rfl | hki
    · rw [Equiv.swap_apply_left, Function.update_self, h.last j]
      by_cases hnil : q j = []
      · rw [if_pos ⟨rfl, hnil⟩, hnil]
        rfl
      · rw [if_neg (fun h => hnil h.2)]
        exact endCell_of_ne_nil hnil
    · rw [if_neg (fun h => hki h.1), Function.update_of_ne hki,
        Equiv.swap_apply_of_ne_of_ne hki hkj]
      exact h.last k
  · exact fun heq => hkl ((Equiv.swap i j).injective heq)

end Store

end Leoman.LinkCells
