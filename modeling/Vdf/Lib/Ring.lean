import Mathlib.Data.List.Nodup
import Mathlib.Logic.Function.Basic

/-!
# Rings

Nodes with a next and a previous link, closed at a head. `s.Ring h l`: from the head the next links
lead through the nodes of `l`, each once, back to the head, and the previous links lead through them
the other way. The way that a traversal takes is a `Path`; it is determined by the links
(`Path.unique`), so a state is the ring of at most one list.
-/

variable {α : Type*}

/-- The links of the nodes. -/
structure Links (α : Type*) where
  next : α → α
  prev : α → α

namespace Links

section Update

variable [DecidableEq α]

def setNext (s : Links α) (x y : α) : Links α := { s with next := Function.update s.next x y }

def setPrev (s : Links α) (x y : α) : Links α := { s with prev := Function.update s.prev x y }

variable (s : Links α) (x y : α)

@[simp] theorem setNext_next : (s.setNext x y).next = Function.update s.next x y := rfl
@[simp] theorem setNext_prev : (s.setNext x y).prev = s.prev := rfl
@[simp] theorem setPrev_next : (s.setPrev x y).next = s.next := rfl
@[simp] theorem setPrev_prev : (s.setPrev x y).prev = Function.update s.prev x y := rfl

end Update

/-- From `a` the steps lead through the nodes of `l`, in that order, to `b`. -/
def Path (step : α → α) : α → List α → α → Prop
  | a, [], b => step a = b
  | a, x :: l, b => step a = x ∧ Path step x l b

namespace Path

variable {step step' : α → α} {a a' b x : α} {l m : List α}

@[simp] theorem nil_iff : Path step a [] b ↔ step a = b := Iff.rfl

@[simp] theorem cons_iff : Path step a (x :: l) b ↔ step a = x ∧ Path step x l b := Iff.rfl

instance decidable [DecidableEq α] (a : α) (l : List α) (b : α) : Decidable (Path step a l b) :=
  match l with
  | [] => inferInstanceAs (Decidable (step a = b))
  | x :: l =>
    have := decidable x l b
    inferInstanceAs (Decidable (step a = x ∧ Path step x l b))

theorem append_iff : Path step a (l ++ x :: m) b ↔ Path step a l x ∧ Path step x m b := by
  induction l generalizing a with
  | nil => rfl
  | cons y l ih => simp only [List.cons_append, cons_iff, ih, and_assoc]

/-- A way reads the links of its start and of the nodes on it. -/
theorem congr (h : Path step a l b) (ha : step' a' = step a) (hl : ∀ x ∈ l, step' x = step x) :
    Path step' a' l b := by
  induction l generalizing a a' with
  | nil => exact ha.trans h
  | cons y l ih =>
    obtain ⟨h1, h2⟩ := h
    refine ⟨ha.trans h1, ih h2 (hl y List.mem_cons_self) fun x hx => ?_⟩
    exact hl x (List.mem_cons_of_mem y hx)

/-- Two ways to a node that neither passes are the same. -/
theorem unique (h : Path step a l b) (h' : Path step a m b) (hl : b ∉ l) (hm : b ∉ m) : l = m := by
  induction l generalizing a m with
  | nil =>
    cases m with
    | nil => rfl
    | cons y m => exact absurd (h.symm.trans h'.1 ▸ List.mem_cons_self) hm
  | cons x l ih =>
    cases m with
    | nil => exact absurd (h'.symm.trans h.1 ▸ List.mem_cons_self) hl
    | cons y m =>
      obtain ⟨h1, h2⟩ := h
      obtain ⟨h3, h4⟩ := h'
      obtain rfl : x = y := h1.symm.trans h3
      simp only [List.mem_cons, not_or] at hl hm
      rw [ih h2 h4 hl.2 hm.2]

end Path

/-- The nodes of `l` are linked to a ring that starts and ends at the head `h`. -/
structure Ring (s : Links α) (h : α) (l : List α) : Prop where
  nodup : (h :: l).Nodup
  forward : Path s.next h l h
  backward : Path s.prev h l.reverse h

namespace Ring

variable {s : Links α} {h a b : α} {l m pre post : List α}

theorem head_notMem (hr : Ring s h l) : h ∉ l := (List.nodup_cons.1 hr.nodup).1

theorem unique (hr : Ring s h l) (hm : Ring s h m) : l = m :=
  hr.forward.unique hm.forward hr.head_notMem hm.head_notMem

/-- The node before one of the list. -/
theorem prev_eq (hr : Ring s h (pre ++ a :: post)) : s.prev a = pre.getLast?.getD h := by
  have hb := hr.backward
  rw [List.reverse_append, List.reverse_cons, List.append_assoc, List.singleton_append,
    Path.append_iff] at hb
  rw [← List.head?_reverse]
  cases hp : pre.reverse with
  | nil => simpa [hp] using hb.2
  | cons x r => simpa [hp] using (hp ▸ hb.2).1

/-- The node after one of the list. -/
theorem next_eq (hr : Ring s h (pre ++ a :: post)) : s.next a = post.head?.getD h := by
  have hf := (Path.append_iff.1 hr.forward).2
  cases post with
  | nil => simpa using hf
  | cons x r => simpa using hf.1

/-! ## Two neighbours with their links exchanged -/

variable {s' : Links α}

/-- `s'` is `s` with the links of `a` and `b` exchanged, and no link to them changed. -/
structure Exchanged (s s' : Links α) (a b : α) : Prop where
  next_left : s'.next a = s.next b
  next_right : s'.next b = s.next a
  prev_left : s'.prev a = s.prev b
  prev_right : s'.prev b = s.prev a
  frame : ∀ x, x ≠ a → x ≠ b → s'.next x = s.next x ∧ s'.prev x = s.prev x

theorem Exchanged.symm (h : Exchanged s s' a b) : Exchanged s s' b a :=
  ⟨h.next_right, h.next_left, h.prev_right, h.prev_left, fun x h1 h2 => h.frame x h2 h1⟩

/-- The way on no longer meets the second one, and the way back no longer meets the first. -/
theorem exchanged (hr : Ring s h (pre ++ a :: b :: post)) (he : Exchanged s s' a b) :
    Path s'.next h (pre ++ a :: post) h ∧ Path s'.prev h (pre ++ b :: post).reverse h := by
  have hd := hr.nodup
  simp only [List.nodup_cons, List.nodup_append, List.mem_append, List.mem_cons, not_or] at hd
  have hfr : ∀ x ∈ h :: pre ++ post, s'.next x = s.next x ∧ s'.prev x = s.prev x := by
    intro x hx
    refine he.frame x ?_ ?_ <;> rintro rfl <;>
      simp only [List.cons_append, List.mem_cons, List.mem_append] at hx <;> grind
  constructor
  · obtain ⟨h1, -, h2⟩ := Path.append_iff.1 hr.forward
    refine Path.append_iff.2 ⟨h1.congr (hfr h (by simp)).1 fun x hx => ?_, ?_⟩
    · exact (hfr x (by simp [hx])).1
    · exact h2.congr he.next_left fun x hx => (hfr x (by simp [hx])).1
  · have hb := hr.backward
    simp only [List.reverse_append, List.reverse_cons, List.append_assoc, List.singleton_append]
      at hb ⊢
    obtain ⟨h1, -, h2⟩ := Path.append_iff.1 hb
    refine Path.append_iff.2 ⟨h1.congr (hfr h (by simp)).2 fun x hx => ?_, ?_⟩
    · exact (hfr x (by simp [List.mem_reverse.1 hx])).2
    · exact h2.congr he.prev_right fun x hx => (hfr x (by simp [List.mem_reverse.1 hx])).2

/-- So the nodes are no ring any more, in whatever order. -/
theorem not_exchanged (hr : Ring s h (pre ++ a :: b :: post)) (he : Exchanged s s' a b) :
    ¬ Ring s' h m := by
  intro hm
  obtain ⟨hf, hb⟩ := hr.exchanged he
  have hd := hr.nodup
  have ha : m = pre ++ a :: post :=
    hm.forward.unique hf hm.head_notMem (by grind)
  have hb : m.reverse = (pre ++ b :: post).reverse :=
    hm.backward.unique hb (by simpa using hm.head_notMem) (by grind)
  have := (ha.symm.trans (List.reverse_injective hb))
  simp only [List.append_cancel_left_eq, List.cons.injEq] at this
  grind

end Ring

end Links
