import Mathlib.Data.List.Infix
import Mathlib.Data.List.TakeWhile

/-! # Trimming — what is left between two ends

    A list loses the front that one class takes and the back that another takes.
    What is left stands in the list with only dropped elements around it
    (`trim_split`), and it begins and ends outside the classes (`trim_first`,
    `trim_last`); these facts say what it is (`trim_surrounded`). -/

namespace Trimming

variable {α : Type*} {p q : α → Bool} {l : List α} {a : α}

/-- The list without the front that `p` takes and the back that `q` takes. -/
def trim (p q : α → Bool) (l : List α) : List α :=
  ((l.dropWhile p).reverse.dropWhile q).reverse

/-! ## One end -/

/-- What the class does not take is not dropped. -/
theorem mem_dropWhile (ha : a ∈ l) (hp : p a = false) : a ∈ l.dropWhile p := by
  induction l with
  | nil => exact ha
  | cons d rest ih =>
      rw [List.dropWhile_cons]
      split
      · next hd =>
          rcases List.mem_cons.mp ha with rfl | ha
          · exact absurd hd (Bool.eq_false_iff.mp hp)
          · exact ih ha
      · exact ha

/-- What dropping stops at is outside the class. -/
theorem dropWhile_head (h : a ∈ (l.dropWhile p).head?) : p a = false := by
  have hhead := List.head?_dropWhile_not p l
  rw [Option.mem_def.mp h] at hhead
  exact hhead

/-- Dropping stops at once where the class does not hold. -/
theorem dropWhile_of_head (h : ∀ a ∈ l.head?, p a = false) : l.dropWhile p = l := by
  cases l with
  | nil => rfl
  | cons a rest => exact List.dropWhile_cons_of_neg (Bool.eq_false_iff.mp (h a rfl))

/-! ## Both ends -/

/-- Trimming is the first drop without a back that the second class takes. -/
theorem trim_append (p q : α → Bool) (l : List α) :
    trim p q l ++ ((l.dropWhile p).reverse.takeWhile q).reverse = l.dropWhile p := by
  rw [trim, ← List.reverse_append, List.takeWhile_append_dropWhile, List.reverse_reverse]

/-- The list is a front of the first class, what is left, and a back of the second. -/
theorem trim_split (p q : α → Bool) (l : List α) : ∃ front back, l = front ++ (trim p q l ++ back)
    ∧ (∀ a ∈ front, p a = true) ∧ ∀ a ∈ back, q a = true := by
  refine ⟨l.takeWhile p, ((l.dropWhile p).reverse.takeWhile q).reverse, ?_, ?_, ?_⟩
  · rw [trim_append, List.takeWhile_append_dropWhile]
  · exact fun a ha => List.mem_takeWhile_imp ha
  · exact fun a ha => List.mem_takeWhile_imp (List.mem_reverse.mp ha)

/-- Trimming takes elements of the classes only. -/
theorem mem_trim (ha : a ∈ l) (hp : p a = false) (hq : q a = false) : a ∈ trim p q l := by
  rw [trim, List.mem_reverse]
  exact mem_dropWhile (List.mem_reverse.mpr (mem_dropWhile ha hp)) hq

/-- What is left does not end in the second class. -/
theorem trim_last (h : a ∈ (trim p q l).getLast?) : q a = false := by
  rw [trim, List.getLast?_reverse] at h
  exact dropWhile_head h

/-- What is left does not begin in the first class. -/
theorem trim_first (h : a ∈ (trim p q l).head?) : p a = false := by
  refine dropWhile_head (l := l) ?_
  rw [← trim_append p q, List.head?_append, h]
  rfl

/-- What stands between dropped elements and begins and ends outside the classes is
    what is left. -/
theorem trim_surrounded {front mid back : List α} (hfront : ∀ a ∈ front, p a = true)
    (hback : ∀ a ∈ back, q a = true) (hne : mid ≠ []) (hfirst : ∀ a ∈ mid.head?, p a = false)
    (hlast : ∀ a ∈ mid.getLast?, q a = false) : trim p q (front ++ (mid ++ back)) = mid := by
  have hleft : (front ++ (mid ++ back)).dropWhile p = mid ++ back := by
    rw [List.dropWhile_append_of_pos hfront, dropWhile_of_head]
    rwa [List.head?_append_of_ne_nil _ hne]
  have hright : (mid ++ back).reverse.dropWhile q = mid.reverse := by
    rw [List.reverse_append,
      List.dropWhile_append_of_pos fun a ha => hback a (List.mem_reverse.mp ha), dropWhile_of_head]
    rwa [List.head?_reverse]
  rw [trim, hleft, hright, List.reverse_reverse]

/-- A list that neither begins nor ends in the classes is left alone. -/
theorem trim_of_ends (hfirst : ∀ a ∈ l.head?, p a = false) (hlast : ∀ a ∈ l.getLast?, q a = false) :
    trim p q l = l := by
  by_cases hne : l = []
  · rw [hne]
    rfl
  · have h := trim_surrounded (List.forall_mem_nil _) (List.forall_mem_nil _) hne hfirst hlast
    rwa [List.nil_append, List.append_nil] at h

end Trimming
