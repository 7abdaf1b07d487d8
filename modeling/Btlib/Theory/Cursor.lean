import Mathlib.Data.List.Basic
import Mathlib.Order.Lattice

-- A place in a list: on an element, or in a gap.
structure Cursor (α : Type) where
  before : List α
  cur : Option α
  after : List α
deriving DecidableEq, Repr

namespace Cursor

variable {α K : Type} {l r : List α} {x : α}

def next (c : Cursor α) : Option (α × Cursor α) :=
  match c.after with
  | [] => none
  | x :: r => some (x, ⟨c.before ++ c.cur.toList, some x, r⟩)

def prev (c : Cursor α) : Option (α × Cursor α) :=
  c.before.getLast?.map fun x => (x, ⟨c.before.dropLast, some x, c.cur.toList ++ c.after⟩)

theorem prev_append {o : Option α} : prev ⟨l ++ [x], o, r⟩ = some (x, ⟨l, some x, o.toList ++ r⟩) := by
  simp [prev]

theorem next_congr {c c' : Cursor α} (hb : c.before ++ c.cur.toList = c'.before ++ c'.cur.toList)
    (ha : c.after = c'.after) : c.next = c'.next := by
  rw [next, next, hb, ha]

theorem prev_congr {c c' : Cursor α} (hb : c.before = c'.before)
    (ha : c.cur.toList ++ c.after = c'.cur.toList ++ c'.after) : c.prev = c'.prev := by
  rw [prev, prev, hb, ha]

theorem cur_next {c c' : Cursor α} (h : c.next = some (x, c')) : c'.cur = some x := by
  obtain ⟨b,o,a⟩ := c
  cases a with
  | nil => simp [next] at h
  | cons y a =>
      simp only [next, Option.some.injEq, Prod.mk.injEq] at h
      obtain ⟨rfl,rfl⟩ := h
      rfl

theorem cur_prev {c c' : Cursor α} (h : c.prev = some (x, c')) : c'.cur = some x := by
  obtain ⟨b,o,a⟩ := c
  rcases List.eq_nil_or_concat' b with rfl | ⟨l,y,rfl⟩
  · simp [prev] at h
  · rw [prev_append, Option.some.injEq, Prod.mk.injEq] at h
    obtain ⟨rfl,rfl⟩ := h
    rfl

-- A list can be cut in one place only between the elements that are `p` and those that are not.
theorem cut_unique {p : α → Prop} {l' r' : List α} (h : l ++ r = l' ++ r') (hl : ∀ x ∈ l, p x) (hr : ∀ x ∈ r, ¬ p x)
    (hl' : ∀ x ∈ l', p x) (hr' : ∀ x ∈ r', ¬ p x) : l = l' ∧ r = r' := by
  rcases List.append_eq_append_iff.1 h with ⟨a,rfl,rfl⟩ | ⟨a,rfl,rfl⟩
  · cases a with
    | nil => exact ⟨(List.append_nil l).symm,rfl⟩
    | cons x a => exact absurd (hl' x (by simp)) (hr x (by simp))
  · cases a with
    | nil => exact ⟨List.append_nil l',rfl⟩
    | cons x a => exact absurd (hl x (by simp)) (hr' x (by simp))

section Seek

variable [LinearOrder K] {κ : α → K} {k : K}

-- The first element of the key `k`, or the gap it belongs into.
def seek (κ : α → K) (k : K) (l : List α) : Cursor α :=
  let b := l.takeWhile fun x => κ x < k
  match l.dropWhile fun x => κ x < k with
  | [] => ⟨b, none, []⟩
  | x :: r => if κ x = k then ⟨b, some x, r⟩ else ⟨b, none, x :: r⟩

theorem seek_gap (hl : ∀ x ∈ l, κ x < k) (hr : ∀ x ∈ r, k < κ x) : seek κ k (l ++ r) = ⟨l, none, r⟩ := by
  have htake : (l ++ r).takeWhile (fun x => decide (κ x < k)) = l := by
    rw [List.takeWhile_append_of_pos (by simpa using hl)]
    cases r with
    | nil => simp
    | cons x r => simp [not_lt.2 (hr x List.mem_cons_self).le]
  have hdrop : (l ++ r).dropWhile (fun x => decide (κ x < k)) = r := by
    rw [List.dropWhile_append_of_pos (by simpa using hl)]
    cases r with
    | nil => rfl
    | cons x r => simp [not_lt.2 (hr x List.mem_cons_self).le]
  simp only [seek, htake, hdrop]
  cases r with
  | nil => rfl
  | cons x r => exact if_neg (hr x List.mem_cons_self).ne'

theorem seek_hit (hl : ∀ x ∈ l, κ x < k) (hx : κ x = k) : seek κ k (l ++ x :: r) = ⟨l, some x, r⟩ := by
  have htake : (l ++ x :: r).takeWhile (fun x => decide (κ x < k)) = l := by
    rw [List.takeWhile_append_of_pos (by simpa using hl)]
    simp [hx]
  have hdrop : (l ++ x :: r).dropWhile (fun x => decide (κ x < k)) = x :: r := by
    rw [List.dropWhile_append_of_pos (by simpa using hl)]
    simp [hx]
  simp only [seek, htake, hdrop, if_pos hx]

theorem seek_cur (h : (seek κ k l).cur = some x) : κ x = k ∧ x ∈ l := by
  unfold seek at h
  dsimp only at h
  split at h
  · cases h
  · rename_i y r hd
    split at h
    · rename_i hk
      obtain rfl := Option.some.inj h
      refine ⟨hk,(List.dropWhile_sublist _).subset (hd ▸ List.mem_cons_self)⟩
    · cases h

end Seek

end Cursor
