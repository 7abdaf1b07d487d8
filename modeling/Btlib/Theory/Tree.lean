import Mathlib.Data.List.Basic
import Mathlib.Data.List.Perm.Basic
import Mathlib.Algebra.Order.BigOperators.Group.List
import Mathlib.Algebra.Order.Ring.Nat
import Mathlib.Order.Defs.LinearOrder

namespace Multiway

variable {ι E K : Type}

-- The entries between consecutive lists.
def weave : List (List E) → List E → List E
  | ks, [] => ks.flatten
  | [], e :: es => e :: es
  | k :: ks, e :: es => k ++ e :: weave ks es

section Weave

variable {ks lk rk : List (List E)} {es le re : List E} {k : List E} {e : E}

@[simp] theorem weave_nil : weave ks ([] : List E) = ks.flatten := by
  cases ks <;> rfl

@[simp] theorem weave_cons_cons : weave (k :: ks) (e :: es) = k ++ e :: weave ks es := rfl

theorem weave_cons (k : List E) (ks : List (List E)) (es : List E) :
    weave (k :: ks) es = k ++ weave ([] :: ks) es := by
  cases es <;> simp

theorem weave_append (h : lk.length = le.length) :
    weave (lk ++ rk) (le ++ re) = weave lk le ++ weave rk re := by
  induction lk generalizing le with
  | nil =>
      obtain rfl := List.length_eq_zero_iff.1 h.symm
      simp
  | cons k lk ih =>
      cases le with
      | nil => simp at h
      | cons e le =>
          simp only [List.length_cons, Nat.add_right_cancel_iff] at h
          simp [ih h]

theorem weave_focus (h : lk.length = le.length) :
    weave (lk ++ k :: rk) (le ++ re) = weave lk le ++ k ++ weave ([] :: rk) re := by
  rw [weave_append h, weave_cons, List.append_assoc]

theorem weave_split (h : lk.length = le.length + 1) :
    weave (lk ++ rk) (le ++ e :: re) = weave lk le ++ e :: weave rk re := by
  obtain ⟨lk,k,rfl⟩ : ∃ lk' k', lk = lk' ++ [k'] :=
    ⟨lk.dropLast,lk.getLast (by rintro rfl; simp at h),(List.dropLast_append_getLast _).symm⟩
  have hl : lk.length = le.length := by simpa using h
  have hle : weave (lk ++ [k]) (le ++ []) = weave lk le ++ weave [k] [] := weave_append hl
  simp only [List.append_nil, weave_nil, List.flatten_cons, List.flatten_nil] at hle
  rw [hle, List.append_assoc, List.singleton_append, weave_append hl]
  simp

theorem mem_weave {x : E} : x ∈ weave ks es ↔ (∃ k ∈ ks, x ∈ k) ∨ x ∈ es := by
  induction es generalizing ks with
  | nil => simp
  | cons e es ih =>
      cases ks with
      | nil => simp [weave]
      | cons k ks =>
          simp only [weave_cons_cons, List.mem_append, List.mem_cons, ih, or_and_right,
            exists_or, exists_eq_left]
          grind

theorem sublist_weave : es.Sublist (weave ks es) := by
  induction es generalizing ks with
  | nil => exact List.nil_sublist _
  | cons e es ih =>
      cases ks with
      | nil => exact List.Sublist.refl _
      | cons k ks => exact (ih.cons_cons e).trans (List.sublist_append_right k _)

theorem length_weave : (weave ks es).length = (ks.map List.length).sum + es.length := by
  induction es generalizing ks with
  | nil => simp
  | cons e es ih =>
      cases ks with
      | nil => simp [weave]
      | cons k ks =>
          simp only [weave_cons_cons, List.length_append, List.length_cons, ih, List.map_cons,
            List.sum_cons]
          omega

end Weave

section Order

variable [LinearOrder K] (κ : E → K)

def Sorted (l : List E) : Prop := l.Pairwise fun a b => κ a < κ b

variable {κ} {ks lk rk : List (List E)} {es le re l r : List E} {e x : E} {k : K}

theorem Sorted.append_iff :
    Sorted κ (l ++ r) ↔ Sorted κ l ∧ Sorted κ r ∧ ∀ a ∈ l, ∀ b ∈ r, κ a < κ b :=
  List.pairwise_append

theorem Sorted.left (h : Sorted κ (l ++ r)) : Sorted κ l := (Sorted.append_iff.1 h).1

theorem Sorted.right (h : Sorted κ (l ++ r)) : Sorted κ r := (Sorted.append_iff.1 h).2.1

theorem Sorted.lt (h : Sorted κ (l ++ r)) {a b : E} (ha : a ∈ l) (hb : b ∈ r) : κ a < κ b :=
  (Sorted.append_iff.1 h).2.2 a ha b hb

theorem Sorted.nil : Sorted κ [] := List.Pairwise.nil

theorem Sorted.tail (h : Sorted κ (e :: l)) : Sorted κ l := (List.pairwise_cons.1 h).2

theorem Sorted.find (h : Sorted κ l) (k : K) :
    (∃ a e b, l = a ++ e :: b ∧ κ e = k ∧ (∀ x ∈ a, κ x < k) ∧ ∀ x ∈ b, k < κ x) ∨
      ∃ a b, l = a ++ b ∧ (∀ x ∈ a, κ x < k) ∧ ∀ x ∈ b, k < κ x := by
  induction l with
  | nil => exact Or.inr ⟨[],[],rfl,by simp,by simp⟩
  | cons y l ih =>
      have hy : ∀ x ∈ l, κ y < κ x := (List.pairwise_cons.1 h).1
      rcases lt_trichotomy (κ y) k with hlt | heq | hgt
      · rcases ih h.tail with ⟨a,e,b,rfl,he,ha,hb⟩ | ⟨a,b,rfl,ha,hb⟩
        · exact Or.inl ⟨y :: a,e,b,rfl,he,by simpa [hlt] using ha,hb⟩
        · exact Or.inr ⟨y :: a,b,rfl,by simpa [hlt] using ha,hb⟩
      · exact Or.inl ⟨[],y,l,rfl,heq,by simp,fun x hx => heq ▸ hy x hx⟩
      · exact Or.inr ⟨[],y :: l,rfl,by simp,by simpa [hgt] using fun x hx => hgt.trans (hy x hx)⟩

theorem Sorted.insert (h : Sorted κ (l ++ r)) (hl : ∀ a ∈ l, κ a < κ e)
    (hr : ∀ b ∈ r, κ e < κ b) : Sorted κ (l ++ e :: r) := by
  refine Sorted.append_iff.2 ⟨h.left,List.pairwise_cons.2 ⟨hr,h.right⟩,?_⟩
  intro a ha b hb
  rcases List.mem_cons.1 hb with rfl | hb
  · exact hl a ha
  · exact h.lt ha hb

theorem Sorted.remove (h : Sorted κ (l ++ e :: r)) : Sorted κ (l ++ r) :=
  Sorted.append_iff.2 ⟨h.left,h.right.tail,fun _ ha _ hb => h.lt ha (List.mem_cons_of_mem e hb)⟩

theorem Sorted.replace (h : Sorted κ (l ++ e :: r)) {e' : E} (he : κ e' = κ e) :
    Sorted κ (l ++ e' :: r) := by
  refine h.remove.insert ?_ ?_
  · intro a ha
    rw [he]
    exact h.lt ha List.mem_cons_self
  · intro b hb
    rw [he]
    exact (List.pairwise_cons.1 h.right).1 b hb

theorem weave_lt (h : Sorted κ (weave lk le)) (hlen : lk.length = le.length)
    (hle : ∀ e ∈ le, κ e < k) (hx : x ∈ weave lk le) : κ x < k := by
  induction le generalizing lk with
  | nil =>
      obtain rfl := List.length_eq_zero_iff.1 hlen
      simp at hx
  | cons e le ih =>
      cases lk with
      | nil => simp at hlen
      | cons l lk =>
          rw [weave_cons_cons] at h hx
          rcases List.mem_append.1 hx with hx | hx
          · exact (h.lt hx List.mem_cons_self).trans (hle e List.mem_cons_self)
          · rcases List.mem_cons.1 hx with rfl | hx
            · exact hle x List.mem_cons_self
            · exact ih h.right.tail (by simpa using hlen)
                (fun y hy => hle y (List.mem_cons_of_mem e hy)) hx

theorem lt_weave (h : Sorted κ (weave ([] :: rk) re)) (hlen : rk.length = re.length)
    (hre : ∀ e ∈ re, k < κ e) (hx : x ∈ weave ([] :: rk) re) : k < κ x := by
  induction re generalizing rk with
  | nil =>
      obtain rfl := List.length_eq_zero_iff.1 hlen
      simp at hx
  | cons e re ih =>
      cases rk with
      | nil => simp at hlen
      | cons l rk =>
          rw [weave_cons_cons, List.nil_append, weave_cons] at h hx
          rcases List.mem_cons.1 hx with rfl | hx
          · exact hre x List.mem_cons_self
          · rcases List.mem_append.1 hx with hx | hx
            · exact (hre e List.mem_cons_self).trans
                ((List.pairwise_cons.1 h).1 x (List.mem_append_left _ hx))
            · exact ih h.tail.right (by simpa using hlen)
                (fun y hy => hre y (List.mem_cons_of_mem e hy)) hx

end Order

structure Node (ι E C : Type) where
  id : ι
  ents : List E
  kids : List C

-- A tree of the given height with named nodes. Where a path ends there is `nil`.
def BTree (ι E : Type) : Nat → Type
  | 0 => Unit
  | n + 1 => Node ι E (BTree ι E n)

namespace BTree

variable {n m : Nat}

def nil : BTree ι E 0 := ()

def node (id : ι) (ents : List E) (kids : List (BTree ι E n)) : BTree ι E (n + 1) :=
  Node.mk id ents kids

theorem eq_nil (t : BTree ι E 0) : t = nil := rfl

theorem eq_node (t : BTree ι E (n + 1)) : ∃ id es ks, t = node id es ks :=
  ⟨Node.id t,Node.ents t,Node.kids t,rfl⟩

def inorder : {n : Nat} → BTree ι E n → List E
  | 0, _ => []
  | _ + 1, t => weave ((Node.kids t).map inorder) (Node.ents t)

def ids : {n : Nat} → BTree ι E n → List ι
  | 0, _ => []
  | _ + 1, t => Node.id t :: ((Node.kids t).map ids).flatten

-- Every node holds `low` entries or more at the top, one or more below it, and at most `cap`.
def Wf (cap : Nat) : {n : Nat} → (low : Nat) → BTree ι E n → Prop
  | 0, _, _ => True
  | _ + 1, low, t =>
      low ≤ (Node.ents t).length ∧ (Node.ents t).length ≤ cap ∧
        (Node.kids t).length = (Node.ents t).length + 1 ∧ ∀ k ∈ Node.kids t, Wf cap 1 k

@[simp] theorem inorder_zero (t : BTree ι E 0) : t.inorder = [] := rfl

@[simp] theorem ids_zero (t : BTree ι E 0) : t.ids = [] := rfl

@[simp] theorem wf_zero (cap low : Nat) (t : BTree ι E 0) : t.Wf cap low := trivial

theorem inorder_node (id : ι) (es : List E) (ks : List (BTree ι E n)) :
    (node id es ks).inorder = weave (ks.map inorder) es := rfl

theorem ids_node (id : ι) (es : List E) (ks : List (BTree ι E n)) :
    (node id es ks).ids = id :: (ks.map ids).flatten := rfl

theorem wf_node {cap low : Nat} {id : ι} {es : List E} {ks : List (BTree ι E n)} :
    (node id es ks).Wf cap low ↔
      low ≤ es.length ∧ es.length ≤ cap ∧ ks.length = es.length + 1 ∧ ∀ k ∈ ks, k.Wf cap 1 :=
  Iff.rfl

theorem Wf.mono {cap low low' : Nat} {t : BTree ι E n} (h : t.Wf cap low) (hl : low' ≤ low) :
    t.Wf cap low' := by
  cases n with
  | zero => trivial
  | succ n => exact ⟨Nat.le_trans hl h.1,h.2⟩

theorem length_ids_le {cap : Nat} {t : BTree ι E n} (h : t.Wf cap 1) :
    t.ids.length ≤ t.inorder.length := by
  induction n with
  | zero => simp
  | succ n ih =>
      obtain ⟨id,es,ks,rfl⟩ := t.eq_node
      obtain ⟨hes,-,-,hks⟩ := wf_node.1 h
      have hsum : (ks.map fun k => k.ids.length).sum ≤
          (ks.map fun k => k.inorder.length).sum :=
        List.sum_le_sum fun k hk => ih (hks k hk)
      simp only [ids_node, inorder_node, List.length_cons, List.length_flatten, length_weave,
        List.map_map, Function.comp_def]
      omega

theorem length_ids_le_succ {cap low : Nat} {t : BTree ι E n} (h : t.Wf cap low) :
    t.ids.length ≤ t.inorder.length + 1 := by
  cases n with
  | zero => simp
  | succ n =>
      obtain ⟨id,es,ks,rfl⟩ := t.eq_node
      have hsum : (ks.map fun k => k.ids.length).sum ≤
          (ks.map fun k => k.inorder.length).sum :=
        List.sum_le_sum fun k hk => length_ids_le ((wf_node.1 h).2.2.2 k hk)
      simp only [ids_node, inorder_node, List.length_cons, List.length_flatten, length_weave,
        List.map_map, Function.comp_def]
      omega

theorem height_le_length_ids {cap low : Nat} {t : BTree ι E n} (h : t.Wf cap low) :
    n ≤ t.ids.length := by
  induction n generalizing low with
  | zero => simp
  | succ n ih =>
      obtain ⟨id,es,ks,rfl⟩ := t.eq_node
      obtain ⟨-,-,hlen,hks⟩ := wf_node.1 h
      obtain ⟨k,ks,rfl⟩ := List.exists_cons_of_length_eq_add_one hlen
      have := ih (hks k List.mem_cons_self)
      simp only [ids_node, List.map_cons, List.flatten_cons, List.length_cons,
        List.length_append]
      omega

end BTree

end Multiway
