import Btlib.Block
import Btlib.Theory.Reads
import Btlib.Theory.Tree
import Mathlib.Order.Fin.Basic

namespace Btlib

open Multiway

section Strcmp

theorem strcmp_eq_zero_iff {a b : Key} : strcmp a b = 0 ↔ a = b := by
  induction a generalizing b with
  | nil =>
      cases b with
      | nil => simp [strcmp]
      | cons y b =>
          simp only [strcmp, reduceCtorEq, iff_false]
          omega
  | cons x a ih =>
      cases b with
      | nil =>
          simp only [strcmp, reduceCtorEq, iff_false]
          omega
      | cons y b =>
          simp only [strcmp, List.cons.injEq]
          split
          · rename_i h
            simp [h, ih]
          · rename_i h
            have : x.val ≠ y.val := fun hv => h (Fin.ext hv)
            simp only [h, false_and, iff_false]
            omega

theorem strcmp_neg_iff {a b : Key} : strcmp a b < 0 ↔ a < b := by
  induction a generalizing b with
  | nil =>
      cases b with
      | nil => simp [strcmp]
      | cons y b =>
          simp only [strcmp, List.nil_lt_cons, iff_true]
          omega
  | cons x a ih =>
      cases b with
      | nil =>
          simp only [strcmp, List.not_lt_nil, iff_false]
          omega
      | cons y b =>
          simp only [strcmp, List.cons_lt_cons_iff]
          split
          · rename_i h
            simp [h, ih]
          · rename_i h
            simp only [h, false_and, or_false, Fin.lt_def]
            omega

theorem strcmp_pos_iff {a b : Key} : 0 < strcmp a b ↔ b < a := by
  have h0 := strcmp_eq_zero_iff (a := a) (b := b)
  have hn := strcmp_neg_iff (a := a) (b := b)
  rcases lt_trichotomy a b with h | h | h
  · have := hn.2 h
    simp only [h.asymm, iff_false]
    omega
  · subst h
    simp [h0.2 rfl]
  · have h1 : strcmp a b ≠ 0 := fun hz => h.ne (h0.1 hz).symm
    have h2 : ¬ strcmp a b < 0 := fun hz => (hn.1 hz).asymm h
    simp only [h, iff_true]
    omega

theorem strcmp_nonpos_iff {a b : Key} : strcmp a b ≤ 0 ↔ a ≤ b := by
  rw [← not_lt, strcmp_pos_iff, not_lt]

end Strcmp

theorem keycpy_eq {k : Key} (h : k.length ≤ 31) : keycpy k = k := List.take_of_length_le h

theorem keycpy_length (k : Key) : (keycpy k).length ≤ 31 := by
  simp only [keycpy, List.length_take, ZKYLEN]
  omega

@[simp] theorem keycpy_keycpy (k : Key) : keycpy (keycpy k) = keycpy k := keycpy_eq (keycpy_length k)

namespace Block

variable {b : Block} {k : Key}

theorem search_of_found {N p : Int}
    (h0 : ∀ i, 0 ≤ i → i < N → (strcmp k (b.keyblk i).key = 0 ↔ i = p))
    (h1 : ∀ i, 0 ≤ i → i < N → (0 < strcmp k (b.keyblk i).key ↔ i < p)) (n : Nat) (lo hi md result : Int)
    (hn : hi - lo < n) (hlo : 0 ≤ lo) (hhi : hi < N) (hp : lo ≤ p) (hp' : p ≤ hi) :
    b.search k n lo hi md result = (p, 0) := by
  induction n generalizing lo hi md result with
  | zero => omega
  | succ n ih =>
      have hmd : lo ≤ (lo + hi) / 2 ∧ (lo + hi) / 2 ≤ hi := by omega
      have h0 := h0 ((lo + hi) / 2) (by omega) (by omega)
      have h1 := h1 ((lo + hi) / 2) (by omega) (by omega)
      simp only [search]
      rw [if_pos (by omega)]
      split
      · rename_i h
        have heq : (lo + hi) / 2 = p := h.elim h0.1 fun h => by omega
        rw [heq] at h0 ⊢
        rw [h0.2 rfl]
      · rename_i h
        push Not at h
        have hne := fun heq => h.1 (h0.2 heq)
        split
        · rename_i hpos
          have := h1.1 hpos
          exact ih _ _ _ _ (by omega) (by omega) hhi (by omega) hp'
        · rename_i hpos
          have := fun hlt => hpos (h1.2 hlt)
          exact ih _ _ _ _ (by omega) hlo (by omega) hp (by omega)

theorem search_of_absent {N p : Int}
    (h0 : ∀ i, 0 ≤ i → i < N → strcmp k (b.keyblk i).key ≠ 0)
    (h1 : ∀ i, 0 ≤ i → i < N → (0 < strcmp k (b.keyblk i).key ↔ i < p)) (n : Nat) (lo hi md result : Int)
    (hn : hi - lo < n) (hlo : 0 ≤ lo) (hhi : hi < N) (hp : lo ≤ p) (hp' : p ≤ hi + 1)
    (hend : hi < lo → 0 ≤ md ∧ ((result < 0 ∧ md = p) ∨ (0 < result ∧ md + 1 = p))) :
    0 ≤ (b.search k n lo hi md result).1 ∧
      (((b.search k n lo hi md result).2 < 0 ∧ (b.search k n lo hi md result).1 = p) ∨
      (0 < (b.search k n lo hi md result).2 ∧ (b.search k n lo hi md result).1 + 1 = p)) := by
  induction n generalizing lo hi md result with
  | zero => exact hend (by omega)
  | succ n ih =>
      simp only [search]
      split
      · rename_i hle
        have hmd : lo ≤ (lo + hi) / 2 ∧ (lo + hi) / 2 ≤ hi := by omega
        have h0 := h0 ((lo + hi) / 2) (by omega) (by omega)
        have h1 := h1 ((lo + hi) / 2) (by omega) (by omega)
        split
        · rename_i h
          rcases h with h | h
          · exact absurd h h0
          · rcases lt_or_gt_of_ne h0 with hneg | hpos
            · have : ¬ (lo + hi) / 2 < p := fun hlt => by
                have := h1.2 hlt
                omega
              exact ⟨by dsimp only; omega,Or.inl ⟨hneg,by dsimp only; omega⟩⟩
            · have := h1.1 hpos
              exact ⟨by dsimp only; omega,Or.inr ⟨hpos,by dsimp only; omega⟩⟩
        · rename_i h
          split
          · rename_i hpos
            have := h1.1 hpos
            exact ih _ _ _ _ (by omega) (by omega) hhi (by omega) hp'
              fun _ => ⟨by omega,Or.inr ⟨hpos,by omega⟩⟩
          · rename_i hpos
            have hlt := fun hlt => hpos (h1.2 hlt)
            exact ih _ _ _ _ (by omega) hlo (by omega) hp (by omega) fun _ =>
              ⟨by omega,Or.inl ⟨by omega,by omega⟩⟩
      · exact hend (by omega)

section Sorted

variable {es l r : List KeyEnt} {e : KeyEnt}

theorem keyblk_of_reads (h : Reads b.keyblk 0 es) {i : Int} (h0 : 0 ≤ i) (hi : i < es.length) :
    b.keyblk i = es.get ⟨i.toNat,by omega⟩ := by
  have := h.get (k := i.toNat) (by omega)
  rw [zero_add, Int.toNat_of_nonneg h0] at this
  exact this

theorem strcmp_reads_left (h : Reads b.keyblk 0 (l ++ r)) (hl : ∀ e ∈ l, e.key < k) {i : Int}
    (h0 : 0 ≤ i) (hi : i < l.length) : 0 < strcmp k (b.keyblk i).key := by
  rw [keyblk_of_reads h h0 (by simp only [List.length_append]; omega), strcmp_pos_iff]
  simp only [List.get_eq_getElem]
  rw [List.getElem_append_left (by omega)]
  exact hl _ (List.getElem_mem _)

theorem strcmp_reads_right (h : Reads b.keyblk 0 (l ++ r)) (hr : ∀ e ∈ r, k < e.key) {i : Int}
    (h0 : (l.length : Int) ≤ i) (hi : i < (l ++ r).length) : strcmp k (b.keyblk i).key < 0 := by
  rw [keyblk_of_reads h (by omega) hi, strcmp_neg_iff]
  simp only [List.get_eq_getElem]
  rw [List.getElem_append_right (by omega)]
  exact hr _ (List.getElem_mem _)

theorem search_found (h : Reads b.keyblk 0 (l ++ e :: r)) (hl : ∀ x ∈ l, x.key < e.key)
    (hr : ∀ x ∈ r, e.key < x.key) :
    b.search e.key (l ++ e :: r).length 0 ((l ++ e :: r).length - 1) (-1) (-1) =
      ((l.length : Int), 0) := by
  have hlen : (l ++ e :: r).length = l.length + (r.length + 1) := by simp
  have hmid : (b.keyblk l.length).key = e.key := by
    rw [Reads.append_iff, zero_add] at h
    rw [h.2.1]
  have hr' : Reads b.keyblk 0 ((l ++ [e]) ++ r) := by simpa using h
  have hsign : ∀ i, 0 ≤ i → i < ((l ++ e :: r).length : Int) →
      (i < l.length ∧ 0 < strcmp e.key (b.keyblk i).key) ∨
      (i = l.length ∧ strcmp e.key (b.keyblk i).key = 0) ∨
      ((l.length : Int) < i ∧ strcmp e.key (b.keyblk i).key < 0) := by
    intro i h0 hi
    rcases lt_trichotomy i (l.length : Int) with hlt | heq | hgt
    · exact Or.inl ⟨hlt,strcmp_reads_left h hl h0 hlt⟩
    · exact Or.inr (Or.inl ⟨heq,by rw [heq, hmid, strcmp_eq_zero_iff]⟩)
    · refine Or.inr (Or.inr ⟨hgt,strcmp_reads_right hr' hr ?_ ?_⟩)
      · simp only [List.length_append, List.length_singleton]
        omega
      · simp only [List.length_append, List.length_singleton]
        omega
  refine search_of_found (N := (l ++ e :: r).length) ?_ ?_ _ _ _ _ _ ?_ ?_ ?_ ?_ ?_
  · intro i h0 hi
    rcases hsign i h0 hi with h | h | h <;> omega
  · intro i h0 hi
    rcases hsign i h0 hi with h | h | h <;> omega
  all_goals omega

theorem search_absent (h : Reads b.keyblk 0 (l ++ r)) (hne : l ++ r ≠ [])
    (hl : ∀ x ∈ l, x.key < k) (hr : ∀ x ∈ r, k < x.key) :
    0 ≤ (b.search k (l ++ r).length 0 ((l ++ r).length - 1) (-1) (-1)).1 ∧
    (((b.search k (l ++ r).length 0 ((l ++ r).length - 1) (-1) (-1)).2 < 0 ∧
      (b.search k (l ++ r).length 0 ((l ++ r).length - 1) (-1) (-1)).1 = l.length) ∨
    (0 < (b.search k (l ++ r).length 0 ((l ++ r).length - 1) (-1) (-1)).2 ∧
      (b.search k (l ++ r).length 0 ((l ++ r).length - 1) (-1) (-1)).1 + 1 = l.length)) := by
  have hpos := List.length_pos_iff.2 hne
  have hlen : (l ++ r).length = l.length + r.length := List.length_append
  have hsign : ∀ i, 0 ≤ i → i < ((l ++ r).length : Int) →
      (i < l.length ∧ 0 < strcmp k (b.keyblk i).key) ∨
      ((l.length : Int) ≤ i ∧ strcmp k (b.keyblk i).key < 0) := by
    intro i h0 hi
    rcases lt_or_ge i (l.length : Int) with hlt | hge
    · exact Or.inl ⟨hlt,strcmp_reads_left h hl h0 hlt⟩
    · exact Or.inr ⟨hge,strcmp_reads_right h hr hge hi⟩
  refine search_of_absent (N := (l ++ r).length) ?_ ?_ _ _ _ _ _ ?_ ?_ ?_ ?_ ?_ ?_
  · intro i h0 hi
    rcases hsign i h0 hi with h | h <;> omega
  · intro i h0 hi
    rcases hsign i h0 hi with h | h <;> omega
  all_goals omega

end Sorted

end Block

end Btlib
