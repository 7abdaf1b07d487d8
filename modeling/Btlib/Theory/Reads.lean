import Mathlib.Logic.Function.Basic
import Mathlib.Data.List.Basic
import Mathlib.Data.Nat.Cast.Defs
import Mathlib.Algebra.Ring.Int.Defs

variable {α : Type}

-- `f` reads the list `l` from `o` on.
def Reads (f : Int → α) : Int → List α → Prop
  | _, [] => True
  | o, a :: l => f o = a ∧ Reads f (o + 1) l

namespace Reads

variable {f g : Int → α} {o j : Int} {l r : List α} {a v : α}

@[simp] theorem nil : Reads f o [] := trivial

@[simp] theorem cons_iff : Reads f o (a :: l) ↔ f o = a ∧ Reads f (o + 1) l := Iff.rfl

theorem append_iff : Reads f o (l ++ r) ↔ Reads f o l ∧ Reads f (o + l.length) r := by
  induction l generalizing o with
  | nil => simp
  | cons a l ih =>
      simp only [List.cons_append, cons_iff, ih, List.length_cons, Nat.cast_succ, and_assoc]
      rw [show o + 1 + (l.length : Int) = o + (l.length + 1) by omega]

theorem congr (h : Reads f o l) (hg : ∀ j, o ≤ j → j < o + l.length → g j = f j) :
    Reads g o l := by
  induction l generalizing o with
  | nil => trivial
  | cons a l ih =>
      simp only [List.length_cons, Nat.cast_succ] at hg
      refine ⟨(hg o (by omega) (by omega)).trans h.1, ih h.2 fun j hj hj' => ?_⟩
      exact hg j (by omega) (by omega)

theorem shift (h : Reads f o l) (i : Int)
    (hg : ∀ k : Nat, k < l.length → g (i + k) = f (o + k)) : Reads g i l := by
  induction l generalizing o i with
  | nil => trivial
  | cons a l ih =>
      refine ⟨?_, ih h.2 (i + 1) fun k hk => ?_⟩
      · simpa [h.1] using hg 0 (by simp)
      · have := hg (k + 1) (by simpa using hk)
        rw [Nat.cast_succ] at this
        rw [show i + 1 + (k : Int) = i + (k + 1) by omega, this]
        congr 1
        omega

theorem update (h : Reads f o l) (hj : j < o ∨ o + l.length ≤ j) :
    Reads (Function.update f j v) o l := by
  refine h.congr fun k hk hk' => Function.update_of_ne ?_ _ _
  omega

theorem get (h : Reads f o l) {k : Nat} (hk : k < l.length) : f (o + k) = l[k] := by
  induction l generalizing o k with
  | nil => simp at hk
  | cons a l ih =>
      cases k with
      | zero => simpa using h.1
      | succ k =>
          have := ih h.2 (k := k) (by simpa using hk)
          rw [List.getElem_cons_succ, ← this]
          congr 1
          push_cast
          omega

theorem of_get (h : ∀ k (hk : k < l.length), f (o + (k : Nat)) = l[k]) : Reads f o l := by
  induction l generalizing o with
  | nil => trivial
  | cons a l ih =>
      have h0 := h 0 (Nat.succ_pos _)
      refine ⟨by simpa using h0, ih fun k hk => ?_⟩
      have := h (k + 1) (by simpa using hk)
      rw [List.getElem_cons_succ] at this
      rw [← this]
      congr 1
      push_cast
      omega

theorem take (h : Reads f o l) (n : Nat) : Reads f o (l.take n) := by
  rw [← List.take_append_drop n l, append_iff] at h
  exact h.1

theorem drop (h : Reads f o l) {n : Nat} (hn : n ≤ l.length) : Reads f (o + n) (l.drop n) := by
  rw [← List.take_append_drop n l, append_iff, List.length_take, Nat.min_eq_left hn] at h
  exact h.2

theorem unique (h : Reads f o l) (h' : Reads f o r) (hl : l.length = r.length) : l = r := by
  refine List.ext_getElem hl fun k hk hk' => ?_
  rw [← h.get hk, h'.get hk']

theorem map_range (f : Int → α) (o : Int) (n : Nat) :
    Reads f o ((List.range n).map fun k => f (o + (k : Nat))) :=
  of_get fun k hk => by simp

end Reads
