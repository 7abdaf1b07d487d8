import Btlib.Theory.Zipper

namespace Multiway

variable {ι E : Type} {n m : Nat}

namespace Frame

variable (f : Frame ι E n) (e : E) (t u : BTree ι E n)

-- The hole has one more child on its right, or on its left.
def withRight : Frame ι E n := ⟨f.id,f.le,f.lk,e :: f.re,u :: f.rk,f.hl,congrArg (· + 1) f.hr⟩

def withLeft : Frame ι E n := ⟨f.id,f.le ++ [e],f.lk ++ [u],f.re,f.rk,by simp [f.hl],f.hr⟩

theorem fill_withLeft : (f.withLeft e u).fill t = f.fillTwo u e t := by
  simp only [fill, fillTwo, withLeft, List.append_assoc, List.singleton_append]

theorem size_withRight : (f.withRight e u).size = f.size + 1 := by
  simp only [size, withRight, List.length_cons]
  omega

theorem size_withLeft : (f.withLeft e u).size = f.size + 1 := by
  simp only [size, withLeft, List.length_append, List.length_singleton]
  omega

variable {f}

theorem Wf.of_withRight {cap low : Nat} (h : (f.withRight e u).Wf cap low) :
    u.Wf cap 1 ∧ ∀ k ∈ f.lk ++ f.rk, k.Wf cap 1 := by
  obtain ⟨-,-,hk⟩ := h
  refine ⟨hk u (List.mem_append_right _ List.mem_cons_self),fun k hm => hk k ?_⟩
  rcases List.mem_append.1 hm with hm | hm
  · exact List.mem_append_left _ hm
  · exact List.mem_append_right _ (List.mem_cons_of_mem _ hm)

theorem Wf.of_withLeft {cap low : Nat} (h : (f.withLeft e u).Wf cap low) :
    u.Wf cap 1 ∧ ∀ k ∈ f.lk ++ f.rk, k.Wf cap 1 := by
  obtain ⟨-,-,hk⟩ := h
  refine ⟨hk u (List.mem_append_left _ (List.mem_append_right _ (List.mem_singleton_self u))),fun k hm => hk k ?_⟩
  rcases List.mem_append.1 hm with hm | hm
  · exact List.mem_append_left _ (List.mem_append_left _ hm)
  · exact List.mem_append_right _ hm

theorem rk_nil (h : f.re = []) : f.rk = [] := List.length_eq_zero_iff.1 (by rw [f.hr, h, List.length_nil])

theorem lk_nil (h : f.le = []) : f.lk = [] := List.length_eq_zero_iff.1 (by rw [f.hl, h, List.length_nil])

variable (f)

theorem right_cases : f.re = [] ∨ ∃ g : Frame ι E n, ∃ e u, f = g.withRight e u := by
  obtain ⟨id,le,lk,re,rk,hl,hr⟩ := f
  cases re with
  | nil => exact Or.inl rfl
  | cons e re =>
      cases rk with
      | nil => simp at hr
      | cons u rk => exact Or.inr ⟨⟨id,le,lk,re,rk,hl,by simpa using hr⟩,e,u,rfl⟩

theorem left_cases : f.le = [] ∨ ∃ g : Frame ι E n, ∃ e u, f = g.withLeft e u := by
  obtain ⟨id,le,lk,re,rk,hl,hr⟩ := f
  rcases List.eq_nil_or_concat le with rfl | ⟨le,e,rfl⟩
  · exact Or.inl rfl
  · rcases List.eq_nil_or_concat lk with rfl | ⟨lk,u,rfl⟩
    · simp at hl
    · refine Or.inr ⟨⟨id,le,lk,re,rk,by simpa using hl,hr⟩,e,u,?_⟩
      simp only [withLeft, List.concat_eq_append]

-- The sibling that is next to the hole: the one on the left where there is one.
def beside : Option (BTree ι E n) := f.lk.getLast?.or f.rk.head?

@[simp] theorem beside_withLeft : (f.withLeft e u).beside = some u := by
  simp [beside, withLeft]

theorem beside_withRight (h : f.le = []) : (f.withRight e u).beside = some u := by
  simp [beside, withRight, f.lk_nil h]

end Frame

def BTree.width : {n : Nat} → BTree ι E n → Nat
  | 0, _ => 0
  | _ + 1, t => (Node.ents t).length

-- Where a node is emptied, the sibling that takes what is left of it has room for one more entry.
def Path.Spares (cap : Nat) : {n m : Nat} → Path ι E n m → Prop
  | _, _, root => True
  | _, _, step f p => (∀ u ∈ f.beside, u.width < cap) ∧ (f.size = 1 → p.Spares cap)

namespace BTree

theorem two_pow_le_length {cap : Nat} {t : BTree ι E n} (h : t.Wf cap 1) : 2 ^ n ≤ t.inorder.length + 1 := by
  induction n with
  | zero => simp
  | succ n ih =>
      obtain ⟨id,es,ks,rfl⟩ := t.eq_node
      obtain ⟨hes,-,hlen,hks⟩ := wf_node.1 h
      obtain ⟨k,ks,rfl⟩ := List.exists_cons_of_length_eq_add_one hlen
      obtain ⟨k',ks,rfl⟩ : ∃ k' ks', ks = k' :: ks' := List.exists_cons_of_ne_nil fun hnil => by
        rw [hnil, List.length_singleton] at hlen
        omega
      have h1 := ih (hks k List.mem_cons_self)
      have h2 := ih (hks k' (List.mem_cons_of_mem _ List.mem_cons_self))
      rw [inorder_node, length_weave]
      simp only [List.map_cons, List.sum_cons, Nat.pow_succ]
      omega

theorem width_le_length {cap : Nat} {t : BTree ι E (n + 2)} (h : t.Wf cap 1) : 2 * t.width + 1 ≤ t.inorder.length := by
  obtain ⟨id,es,ks,rfl⟩ := t.eq_node
  obtain ⟨-,-,hkids,hks⟩ := wf_node.1 h
  have hsum : ks.length ≤ ((ks.map inorder).map List.length).sum := by
    have hlen : ks.length = ((ks.map inorder).map List.length).length := by
      rw [List.length_map, List.length_map]
    rw [hlen]
    refine List.length_le_sum_of_one_le _ fun i hi => ?_
    obtain ⟨l,hl,rfl⟩ := List.mem_map.1 hi
    obtain ⟨k,hk,rfl⟩ := List.mem_map.1 hl
    have h2 := two_pow_le_length (hks k hk)
    rw [Nat.pow_succ] at h2
    have := Nat.one_le_two_pow (n := n)
    omega
  rw [inorder_node, length_weave]
  change 2 * es.length + 1 ≤ _
  omega

end BTree

end Multiway
