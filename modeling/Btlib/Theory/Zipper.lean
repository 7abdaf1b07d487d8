import Btlib.Theory.Tree

namespace Multiway

variable {ι E K : Type} {n m : Nat}

-- A node of height `n + 1` with a hole for one of its children.
structure Frame (ι E : Type) (n : Nat) where
  id : ι
  le : List E
  lk : List (BTree ι E n)
  re : List E
  rk : List (BTree ι E n)
  hl : lk.length = le.length
  hr : rk.length = re.length

namespace Frame

variable (f : Frame ι E n) (t : BTree ι E n)

def fill : BTree ι E (n + 1) := BTree.node f.id (f.le ++ f.re) (f.lk ++ t :: f.rk)

def left : List E := weave (f.lk.map BTree.inorder) f.le

def right : List E := weave ([] :: f.rk.map BTree.inorder) f.re

def ids : List ι := f.id :: ((f.lk ++ f.rk).map BTree.ids).flatten

def size : Nat := f.le.length + f.re.length

theorem inorder_fill : (f.fill t).inorder = f.left ++ t.inorder ++ f.right := by
  have hl : (f.lk.map BTree.inorder).length = f.le.length := by simp [f.hl]
  simp only [fill, BTree.inorder_node, List.map_append, List.map_cons, weave_focus hl, left, right]

theorem ids_fill : ((f.fill t).ids).Perm (t.ids ++ f.ids) := by
  have h : ((f.lk.map BTree.ids).flatten ++ (t.ids ++ (f.rk.map BTree.ids).flatten)).Perm
      (t.ids ++ ((f.lk.map BTree.ids).flatten ++ (f.rk.map BTree.ids).flatten)) :=
    List.perm_append_comm_assoc _ _ _
  simp only [fill, ids, BTree.ids_node, List.map_append, List.map_cons, List.flatten_append,
    List.flatten_cons]
  exact (h.cons f.id).trans List.perm_middle.symm

def Wf (cap low : Nat) : Prop :=
  low ≤ f.size ∧ f.size ≤ cap ∧ ∀ k ∈ f.lk ++ f.rk, k.Wf cap 1

theorem wf_fill_iff {cap low : Nat} :
    (f.fill t).Wf cap low ↔ f.Wf cap low ∧ t.Wf cap 1 := by
  have hlen : (f.lk ++ t :: f.rk).length = (f.le ++ f.re).length + 1 := by
    simp only [List.length_append, List.length_cons, f.hl, f.hr]
    omega
  simp only [fill, BTree.wf_node, hlen, Wf, size, List.length_append, true_and, List.mem_append,
    List.mem_cons]
  constructor
  · rintro ⟨h1,h2,h3⟩
    exact ⟨⟨h1,h2,fun k hk => h3 k (by tauto)⟩,h3 t (by tauto)⟩
  · rintro ⟨⟨h1,h2,h3⟩,ht⟩
    refine ⟨h1,h2,fun k hk => ?_⟩
    rcases hk with hk | rfl | hk
    · exact h3 k (Or.inl hk)
    · exact ht
    · exact h3 k (Or.inr hk)

end Frame

-- The way down from a tree of height `m` to a hole of height `n`, the innermost node first.
inductive Path (ι E : Type) : Nat → Nat → Type
  | root {n : Nat} : Path ι E n n
  | step {n m : Nat} (f : Frame ι E n) (p : Path ι E (n + 1) m) : Path ι E n m

namespace Path

def plug : {n m : Nat} → Path ι E n m → BTree ι E n → BTree ι E m
  | _, _, root, t => t
  | _, _, step f p, t => p.plug (f.fill t)

def left : {n m : Nat} → Path ι E n m → List E
  | _, _, root => []
  | _, _, step f p => p.left ++ f.left

def right : {n m : Nat} → Path ι E n m → List E
  | _, _, root => []
  | _, _, step f p => f.right ++ p.right

def ids : {n m : Nat} → Path ι E n m → List ι
  | _, _, root => []
  | _, _, step f p => f.ids ++ p.ids

def depth : {n m : Nat} → Path ι E n m → Nat
  | _, _, root => 0
  | _, _, step _ p => p.depth + 1

-- The name of the root of a tree whose hole is filled with a node named `c`.
def top : {n m : Nat} → Path ι E n m → ι → ι
  | _, _, root, c => c
  | _, _, step f p, _ => p.top f.id

-- How many entries the node in the hole must have: only a root that is a leaf may be empty.
def floor : {n m : Nat} → Path ι E n m → Nat
  | n, _, root => if n ≤ 1 then 0 else 1
  | _, _, step _ _ => 1

def Wf (cap : Nat) : {n m : Nat} → Path ι E n m → Prop
  | _, _, root => True
  | _, _, step f p => f.Wf cap p.floor ∧ p.Wf cap

@[simp] theorem plug_root (t : BTree ι E n) : (root : Path ι E n n).plug t = t := rfl

@[simp] theorem plug_step (f : Frame ι E n) (p : Path ι E (n + 1) m) (t : BTree ι E n) :
    (step f p).plug t = p.plug (f.fill t) := rfl

@[simp] theorem left_root : (root : Path ι E n n).left = [] := rfl

@[simp] theorem left_step (f : Frame ι E n) (p : Path ι E (n + 1) m) :
    (step f p).left = p.left ++ f.left := rfl

@[simp] theorem right_root : (root : Path ι E n n).right = [] := rfl

@[simp] theorem right_step (f : Frame ι E n) (p : Path ι E (n + 1) m) :
    (step f p).right = f.right ++ p.right := rfl

@[simp] theorem ids_root : (root : Path ι E n n).ids = [] := rfl

@[simp] theorem ids_step (f : Frame ι E n) (p : Path ι E (n + 1) m) :
    (step f p).ids = f.ids ++ p.ids := rfl

@[simp] theorem floor_step (f : Frame ι E n) (p : Path ι E (n + 1) m) :
    (step f p).floor = 1 := rfl

@[simp] theorem wf_root {cap : Nat} : (root : Path ι E n n).Wf cap := trivial

theorem wf_step {cap : Nat} {f : Frame ι E n} {p : Path ι E (n + 1) m} :
    (step f p).Wf cap ↔ f.Wf cap p.floor ∧ p.Wf cap := Iff.rfl

theorem top_mem (p : Path ι E n m) (c : ι) : p.top c = c ∨ p.top c ∈ p.ids := by
  induction p generalizing c with
  | root => exact Or.inl rfl
  | step f p ih =>
      right
      rcases ih f.id with h | h
      · exact h ▸ List.mem_append_left _ List.mem_cons_self
      · exact List.mem_append_right _ h

theorem top_step_mem (f : Frame ι E n) (p : Path ι E (n + 1) m) (c : ι) :
    (step f p).top c ∈ (step f p).ids := by
  rcases p.top_mem f.id with h | h
  · exact List.mem_append_left _ (h ▸ List.mem_cons_self)
  · exact List.mem_append_right _ h

theorem floor_le_one (p : Path ι E n m) : p.floor ≤ 1 := by
  cases p with
  | root =>
      simp only [floor]
      split <;> omega
  | step f p => exact le_rfl

theorem height_eq (p : Path ι E n m) : m = n + p.depth := by
  induction p with
  | root => rfl
  | step f p ih =>
      simp only [depth]
      omega

theorem inorder_plug (p : Path ι E n m) (t : BTree ι E n) :
    (p.plug t).inorder = p.left ++ t.inorder ++ p.right := by
  induction p with
  | root => simp
  | step f p ih =>
      rw [plug_step, ih, f.inorder_fill]
      simp only [left_step, right_step, List.append_assoc]

theorem ids_plug (p : Path ι E n m) (t : BTree ι E n) : ((p.plug t).ids).Perm (t.ids ++ p.ids) := by
  induction p with
  | root => simp
  | step f p ih =>
      rw [plug_step, ids_step, ← List.append_assoc]
      exact (ih _).trans ((f.ids_fill t).append_right _)

theorem wf_plug_iff {cap : Nat} (p : Path ι E n m) (t : BTree ι E n) :
    (p.plug t).Wf cap (root : Path ι E m m).floor ↔ p.Wf cap ∧ t.Wf cap p.floor := by
  induction p with
  | root => simp
  | step f p ih =>
      rw [plug_step, ih, Frame.wf_fill_iff, wf_step, floor_step]
      tauto

theorem inorder_entry (p : Path ι E (n + 1) m) {a : ι} {l r : List E} {ks : List (BTree ι E n)} (e : E)
    (h : l.length < ks.length) :
    (p.plug (BTree.node a (l ++ e :: r) ks)).inorder =
      (p.left ++ weave ((ks.take (l.length + 1)).map BTree.inorder) l) ++
        e :: (weave ((ks.drop (l.length + 1)).map BTree.inorder) r ++ p.right) := by
  have hlen : ((ks.take (l.length + 1)).map BTree.inorder).length = l.length + 1 := by
    simp only [List.length_map, List.length_take]
    omega
  have hks : ks.map BTree.inorder = (ks.take (l.length + 1)).map BTree.inorder ++
      (ks.drop (l.length + 1)).map BTree.inorder := by
    rw [← List.map_append, List.take_append_drop]
  rw [inorder_plug, BTree.inorder_node, hks, weave_split hlen]
  simp only [List.append_assoc, List.cons_append]

end Path

-- A tree whose root alone may be empty, when it is a leaf.
def BTree.RootWf (cap : Nat) (t : BTree ι E n) : Prop := t.Wf cap (Path.root : Path ι E n n).floor

theorem Path.rootWf_plug_iff {cap : Nat} (p : Path ι E n m) (t : BTree ι E n) :
    (p.plug t).RootWf cap ↔ p.Wf cap ∧ t.Wf cap p.floor := p.wf_plug_iff t

section Split

variable {cap low : Nat} {a b c : ι} {l r : List E} {e : E} {lk rk : List (BTree ι E n)}

theorem inorder_cut (hl : lk.length = l.length + 1) :
    (BTree.node c [e] [BTree.node a l lk, BTree.node b r rk]).inorder =
      (BTree.node a (l ++ e :: r) (lk ++ rk)).inorder := by
  have hlk : (lk.map BTree.inorder).length = l.length + 1 := by simp [hl]
  simp only [BTree.inorder_node, List.map_cons, List.map_nil, List.map_append, weave_split hlk,
    weave_cons_cons, weave_nil, List.flatten_cons, List.flatten_nil, List.append_nil]

theorem BTree.Wf.cut (h : (BTree.node a (l ++ e :: r) (lk ++ rk)).Wf cap low)
    (hl : lk.length = l.length + 1) (hl0 : l ≠ []) (hr0 : r ≠ []) :
    (BTree.node a l lk).Wf cap 1 ∧ (BTree.node b r rk).Wf cap 1 := by
  obtain ⟨-,hcap,hlen,hk⟩ := BTree.wf_node.1 h
  simp only [List.length_append, List.length_cons] at hcap hlen
  have hl1 := List.length_pos_iff.2 hl0
  have hr1 := List.length_pos_iff.2 hr0
  simp only [BTree.wf_node]
  exact ⟨⟨hl1,by omega,hl,fun k hk' => hk k (List.mem_append_left _ hk')⟩,
    ⟨hr1,by omega,by omega,fun k hk' => hk k (List.mem_append_right _ hk')⟩⟩

-- The parent of a cut node takes the entry and the new child.
def Frame.fillTwo (f : Frame ι E n) (t : BTree ι E n) (e : E) (u : BTree ι E n) : BTree ι E (n + 1) :=
  BTree.node f.id (f.le ++ e :: f.re) (f.lk ++ t :: u :: f.rk)

theorem Frame.inorder_fillTwo (f : Frame ι E n) (t u : BTree ι E n) :
    (f.fillTwo t e u).inorder = f.left ++ (t.inorder ++ e :: u.inorder) ++ f.right := by
  have hl : (f.lk.map BTree.inorder ++ [t.inorder]).length = f.le.length + 1 := by simp [f.hl]
  have h : weave ((f.lk.map BTree.inorder ++ [t.inorder]) ++ u.inorder :: f.rk.map BTree.inorder)
      (f.le ++ e :: f.re) = weave (f.lk.map BTree.inorder ++ [t.inorder]) f.le ++
        e :: weave (u.inorder :: f.rk.map BTree.inorder) f.re := weave_split hl
  have hl' : (f.lk.map BTree.inorder).length = f.le.length := by simp [f.hl]
  have h' : weave (f.lk.map BTree.inorder ++ [t.inorder]) (f.le ++ []) =
      weave (f.lk.map BTree.inorder) f.le ++ weave [t.inorder] [] := weave_append hl'
  simp only [fillTwo, BTree.inorder_node, List.map_append, List.map_cons]
  simp only [List.append_assoc, List.singleton_append, List.append_nil] at h h'
  rw [h, h', weave_cons u.inorder]
  simp [left, right]

theorem Frame.ids_fillTwo (f : Frame ι E n) (t u : BTree ι E n) :
    ((f.fillTwo t e u).ids).Perm (t.ids ++ u.ids ++ f.ids) := by
  have h : ((f.lk.map BTree.ids).flatten ++ (t.ids ++ (u.ids ++ (f.rk.map BTree.ids).flatten))).Perm
      (t.ids ++ u.ids ++ ((f.lk.map BTree.ids).flatten ++ (f.rk.map BTree.ids).flatten)) := by
    rw [← List.append_assoc t.ids]
    exact List.perm_append_comm_assoc _ _ _
  simp only [fillTwo, ids, BTree.ids_node, List.map_append, List.map_cons, List.flatten_append,
    List.flatten_cons]
  exact (h.cons f.id).trans List.perm_middle.symm

-- A node is cut in two and takes the name `b` for its second half.
theorem Path.ids_plug_cut (p : Path ι E (n + 2) m) (f : Frame ι E (n + 1)) :
    ((p.plug (f.fillTwo (BTree.node a l lk) e (BTree.node b r rk))).ids).Perm
      (b :: ((Path.step f p).plug (BTree.node a (l ++ e :: r) (lk ++ rk))).ids) := by
  have h : ((BTree.node a l lk).ids ++ (BTree.node b r rk).ids).Perm
      (b :: (BTree.node a (l ++ e :: r) (lk ++ rk)).ids) := by
    simp only [BTree.ids_node, List.map_append, List.flatten_append]
    exact List.perm_middle
  refine (p.ids_plug _).trans ?_
  refine List.Perm.trans ?_ (((Path.step f p).ids_plug _).symm.cons b)
  rw [Path.ids_step, ← List.append_assoc, ← List.cons_append, ← List.cons_append]
  exact ((f.ids_fillTwo _ _).trans (h.append_right _)).append_right _

theorem Frame.wf_fillTwo (f : Frame ι E n) {t u : BTree ι E n} (hf : f.Wf cap low)
    (hcap : f.size < cap) (ht : t.Wf cap 1) (hu : u.Wf cap 1) : (f.fillTwo t e u).Wf cap 1 := by
  obtain ⟨-,-,hk⟩ := hf
  simp only [size] at hcap
  simp only [fillTwo, BTree.wf_node, List.length_append, List.length_cons, f.hl, f.hr,
    List.mem_append, List.mem_cons]
  refine ⟨by omega,by omega,by omega,fun k hk' => ?_⟩
  rcases hk' with hk' | rfl | rfl | hk'
  · exact hk k (List.mem_append_left _ hk')
  · exact ht
  · exact hu
  · exact hk k (List.mem_append_right _ hk')

end Split

section Order

variable [LinearOrder K] {κ : E → K} {k : K}

theorem Frame.left_lt {f : Frame ι E n} (h : Sorted κ f.left) (hk : ∀ e ∈ f.le, κ e < k) :
    ∀ x ∈ f.left, κ x < k := fun _ hx => weave_lt h (by simp [f.hl]) hk hx

theorem Frame.lt_right {f : Frame ι E n} (h : Sorted κ f.right) (hk : ∀ e ∈ f.re, k < κ e) :
    ∀ x ∈ f.right, k < κ x := fun _ hx => lt_weave h (by simp [f.hr]) hk hx

end Order

end Multiway
