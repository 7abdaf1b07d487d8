import Mathlib.Data.List.Nodup
import Mathlib.Data.List.Perm.Basic

-- Trees of at most `n` levels, with a label at each node.
def RoseTree (ι : Type) : Nat → Type
  | 0 => Empty
  | n + 1 => ι × List (RoseTree ι n)

namespace RoseTree

variable {ι : Type} {n m : Nat} {a b c : ι}

def node (a : ι) (ks : List (RoseTree ι n)) : RoseTree ι (n + 1) := (a, ks)

def label : {n : Nat} → RoseTree ι n → ι
  | 0, t => t.elim
  | _ + 1, t => t.1

-- The labels, those of the children before that of the node.
def post : {n : Nat} → RoseTree ι n → List ι
  | 0, t => t.elim
  | _ + 1, t => (t.2.map post).flatten ++ [t.1]

-- The labels in the same order, with how deep their nodes are where the tree is at `d`.
def postAt : {n : Nat} → (d : Nat) → RoseTree ι n → List (ι × Nat)
  | 0, _, t => t.elim
  | _ + 1, d, t => (t.2.map (postAt (d + 1))).flatten ++ [(t.1, d)]

-- Those of them that have no children.
def leavesAt : {n : Nat} → (d : Nat) → RoseTree ι n → List (ι × Nat)
  | 0, _, t => t.elim
  | _ + 1, d, t => if t.2.isEmpty then [(t.1, d)] else (t.2.map (leavesAt (d + 1))).flatten

-- What is above the node of a tree that a walk has come to: the parent, the place of the child in it, and the
-- children behind.
inductive Trail (ι : Type) : Nat → Nat → Type where
  | top {n : Nat} : Trail ι n n
  | step {n m : Nat} (a : ι) (pos : Nat) (rest : List (RoseTree ι n)) (up : Trail ι (n + 1) m) : Trail ι n m

namespace Trail

def depth : {n m : Nat} → Trail ι n m → Nat
  | _, _, .top => 0
  | _, _, .step _ _ _ up => up.depth + 1

-- The labels the walk still has to come to.
def plan : {n m : Nat} → Trail ι n m → List (ι × Nat)
  | _, _, .top => []
  | _, _, .step a _ rest up => (rest.map (postAt (up.depth + 1))).flatten ++ (a, up.depth) :: up.plan

def todo (p : Trail ι n m) : List ι := p.plan.map Prod.fst

theorem depth_add (p : Trail ι n m) : p.depth + n = m := by
  induction p with
  | top => exact Nat.zero_add _
  | step a pos rest up ih =>
      unfold depth
      omega

end Trail

@[simp] theorem label_node (a : ι) (ks : List (RoseTree ι n)) : (node a ks).label = a := rfl

@[simp] theorem post_node (a : ι) (ks : List (RoseTree ι n)) : (node a ks).post = (ks.map post).flatten ++ [a] := rfl

@[simp] theorem postAt_node (d : Nat) (a : ι) (ks : List (RoseTree ι n)) :
    (node a ks).postAt d = (ks.map (postAt (d + 1))).flatten ++ [(a, d)] := rfl

theorem eq_node (t : RoseTree ι (n + 1)) : ∃ a ks, t = node a ks := ⟨t.1,t.2,rfl⟩

theorem map_postAt (d : Nat) (t : RoseTree ι n) : (t.postAt d).map Prod.fst = t.post := by
  induction n generalizing d with
  | zero => exact t.elim
  | succ n ih =>
      obtain ⟨a,ks,rfl⟩ := t.eq_node
      rw [postAt_node, post_node, List.map_append, List.map_flatten, List.map_map]
      congr 2
      exact List.map_congr_left fun k _ => ih (d + 1) k

@[simp] theorem Trail.depth_top : (Trail.top : Trail ι n n).depth = 0 := rfl

@[simp] theorem Trail.depth_step (a : ι) (pos : Nat) (rest : List (RoseTree ι n)) (up : Trail ι (n + 1) m) :
    (Trail.step a pos rest up).depth = up.depth + 1 := rfl

@[simp] theorem Trail.plan_top : (Trail.top : Trail ι n n).plan = [] := rfl

@[simp] theorem Trail.plan_step (a : ι) (pos : Nat) (rest : List (RoseTree ι n)) (up : Trail ι (n + 1) m) :
    (Trail.step a pos rest up).plan = (rest.map (postAt (up.depth + 1))).flatten ++ (a, up.depth) :: up.plan := rfl

@[simp] theorem Trail.todo_top : (Trail.top : Trail ι n n).todo = [] := rfl

@[simp] theorem Trail.todo_step (a : ι) (pos : Nat) (rest : List (RoseTree ι n)) (up : Trail ι (n + 1) m) :
    (Trail.step a pos rest up).todo = (rest.map post).flatten ++ a :: up.todo := by
  rw [todo, plan, List.map_append, List.map_flatten, List.map_map, List.map_cons]
  congr 2
  exact List.map_congr_left fun k _ => map_postAt _ k

theorem label_mem_post (t : RoseTree ι n) : t.label ∈ t.post := by
  cases n with
  | zero => exact t.elim
  | succ n =>
      obtain ⟨a,ks,rfl⟩ := t.eq_node
      simp

theorem post_getLast (t : RoseTree ι n) : t.post.getLast? = some t.label := by
  cases n with
  | zero => exact t.elim
  | succ n =>
      obtain ⟨a,ks,rfl⟩ := t.eq_node
      simp

-- A node of the tree and one of its children.
def Child : {n : Nat} → RoseTree ι n → ι → ι → Prop
  | 0, _, _, _ => False
  | _ + 1, t, a, b => (t.1 = a ∧ ∃ k ∈ t.2, k.label = b) ∨ ∃ k ∈ t.2, k.Child a b

theorem sublist_flatten_of_mem {α : Type} {l : List α} {L : List (List α)} (h : l ∈ L) : l.Sublist L.flatten := by
  obtain ⟨s,r,rfl⟩ := List.append_of_mem h
  rw [List.flatten_append, List.flatten_cons]
  exact (List.sublist_append_left l r.flatten).trans (List.sublist_append_right _ _)

theorem child_before (t : RoseTree ι n) (h : t.Child a b) : [b, a].Sublist t.post := by
  induction n with
  | zero => exact t.elim
  | succ n ih =>
      obtain ⟨c,ks,rfl⟩ := t.eq_node
      rcases h with ⟨rfl,k,hk,rfl⟩ | ⟨k,hk,h⟩
      · have hmem : k.label ∈ (ks.map post).flatten :=
          List.mem_flatten.2 ⟨_,List.mem_map_of_mem hk,k.label_mem_post⟩
        exact (List.singleton_sublist.2 hmem).append (List.Sublist.refl [c])
      · exact ((ih k h).trans (sublist_flatten_of_mem (List.mem_map_of_mem hk))).trans
          (List.sublist_append_left _ _)

end RoseTree
