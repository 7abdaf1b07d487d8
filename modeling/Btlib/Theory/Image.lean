import Btlib.Theory.Siblings

-- A tree with other entries in the same places.
namespace Multiway

variable {ι E F : Type} {n m cap low : Nat} (φ : E → F)

theorem map_weave (ks : List (List E)) (es : List E) :
    (weave ks es).map φ = weave (ks.map (List.map φ)) (es.map φ) := by
  induction es generalizing ks with
  | nil => simp [List.map_flatten]
  | cons e es ih =>
      cases ks with
      | nil => rfl
      | cons k ks => simp [ih]

namespace BTree

def image : {n : Nat} → BTree ι E n → BTree ι F n
  | 0, _ => nil
  | _ + 1, t => node (Node.id t) ((Node.ents t).map φ) ((Node.kids t).map image)

theorem image_node (a : ι) (es : List E) (ks : List (BTree ι E n)) :
    (node a es ks).image φ = node a (es.map φ) (ks.map (image φ)) := rfl

@[simp] theorem inorder_image (t : BTree ι E n) : (t.image φ).inorder = t.inorder.map φ := by
  induction n with
  | zero => rfl
  | succ n ih =>
      obtain ⟨a,es,ks,rfl⟩ := t.eq_node
      rw [image_node, inorder_node, inorder_node, map_weave, List.map_map, List.map_map]
      exact congrArg (weave · _) (List.map_congr_left fun k _ => ih k)

@[simp] theorem ids_image (t : BTree ι E n) : (t.image φ).ids = t.ids := by
  induction n with
  | zero => rfl
  | succ n ih =>
      obtain ⟨a,es,ks,rfl⟩ := t.eq_node
      rw [image_node, ids_node, ids_node, List.map_map]
      exact congrArg (a :: List.flatten ·) (List.map_congr_left fun k _ => ih k)

theorem wf_image {t : BTree ι E n} : (t.image φ).Wf cap low ↔ t.Wf cap low := by
  induction n generalizing low with
  | zero => exact Iff.rfl
  | succ n ih =>
      obtain ⟨a,es,ks,rfl⟩ := t.eq_node
      simp only [image_node, wf_node, List.length_map, List.forall_mem_map, ih]

@[simp] theorem width_image (t : BTree ι E n) : (t.image φ).width = t.width := by
  cases n with
  | zero => rfl
  | succ n => exact List.length_map _

theorem image_self {φ : E → E} {t : BTree ι E n} (h : ∀ e ∈ t.inorder, φ e = e) : t.image φ = t := by
  induction n with
  | zero => rfl
  | succ n ih =>
      obtain ⟨a,es,ks,rfl⟩ := t.eq_node
      have hes : es.map φ = es :=
        (List.map_congr_left fun e he => h e (mem_weave.2 (Or.inr he))).trans (List.map_id es)
      have hks : ks.map (image φ) = ks := by
        refine (List.map_congr_left fun k hk => ih fun e he => h e ?_).trans (List.map_id ks)
        exact mem_weave.2 (Or.inl ⟨_,List.mem_map_of_mem hk,he⟩)
      rw [image_node, hes, hks]

end BTree

namespace Frame

def image (f : Frame ι E n) : Frame ι F n where
  id := f.id
  le := f.le.map φ
  lk := f.lk.map (BTree.image φ)
  re := f.re.map φ
  rk := f.rk.map (BTree.image φ)
  hl := by simp [f.hl]
  hr := by simp [f.hr]

theorem fill_image (f : Frame ι E n) (t : BTree ι E n) : (f.image φ).fill (t.image φ) = (f.fill t).image φ := by
  simp only [fill, image, BTree.image_node, List.map_append, List.map_cons]

@[simp] theorem size_image (f : Frame ι E n) : (f.image φ).size = f.size := by simp [size, image]

theorem left_image (f : Frame ι E n) : (f.image φ).left = f.left.map φ := by
  rw [left, left, map_weave, image, List.map_map, List.map_map]
  exact congrArg (weave · _) (List.map_congr_left fun k _ => BTree.inorder_image φ k)

theorem right_image (f : Frame ι E n) : (f.image φ).right = f.right.map φ := by
  rw [right, right, map_weave, image, List.map_cons, List.map_map, List.map_map]
  exact congrArg (fun ks => weave ([] :: ks) _) (List.map_congr_left fun k _ => BTree.inorder_image φ k)

theorem beside_image (f : Frame ι E n) : (f.image φ).beside = f.beside.map (BTree.image φ) := by
  simp only [beside, image, List.getLast?_map, List.head?_map, Option.map_or]

theorem image_self {φ : E → E} {f : Frame ι E n} (h : ∀ e ∈ f.left ++ f.right, φ e = e) : f.image φ = f := by
  obtain ⟨a,le,lk,re,rk,hl,hr⟩ := f
  have hent : ∀ {l : List E}, (∀ e ∈ l, φ e = e) → l.map φ = l := fun hl =>
    (List.map_congr_left hl).trans (List.map_id _)
  have hkid : ∀ {l : List (BTree ι E n)}, (∀ k ∈ l, ∀ e ∈ k.inorder, φ e = e) → l.map (BTree.image φ) = l := fun hl =>
    (List.map_congr_left fun k hk => BTree.image_self (hl k hk)).trans (List.map_id _)
  simp only [image, mk.injEq, true_and]
  refine ⟨hent fun e he => h e ?_,hkid fun k hk e he => h e ?_,hent fun e he => h e ?_,hkid fun k hk e he => h e ?_⟩
  · exact List.mem_append_left _ (mem_weave.2 (Or.inr he))
  · exact List.mem_append_left _ (mem_weave.2 (Or.inl ⟨_,List.mem_map_of_mem hk,he⟩))
  · exact List.mem_append_right _ (mem_weave.2 (Or.inr he))
  · exact List.mem_append_right _ (mem_weave.2 (Or.inl ⟨_,List.mem_cons_of_mem _ (List.mem_map_of_mem hk),he⟩))

end Frame

namespace Path

def image : {n m : Nat} → Path ι E n m → Path ι F n m
  | _, _, root => root
  | _, _, step f p => step (f.image φ) p.image

@[simp] theorem image_root : (root : Path ι E n n).image φ = root := rfl

@[simp] theorem image_step (f : Frame ι E n) (p : Path ι E (n + 1) m) :
    (step f p).image φ = step (f.image φ) (p.image φ) := rfl

theorem plug_image (p : Path ι E n m) (t : BTree ι E n) : (p.image φ).plug (t.image φ) = (p.plug t).image φ := by
  induction p with
  | root => rfl
  | step f p ih => rw [image_step, plug_step, Frame.fill_image, ih, plug_step]

theorem left_image (p : Path ι E n m) : (p.image φ).left = p.left.map φ := by
  induction p with
  | root => rfl
  | step f p ih => rw [image_step, left_step, left_step, ih, f.left_image, List.map_append]

theorem right_image (p : Path ι E n m) : (p.image φ).right = p.right.map φ := by
  induction p with
  | root => rfl
  | step f p ih => rw [image_step, right_step, right_step, ih, f.right_image, List.map_append]

theorem spares_image {p : Path ι E n m} : (p.image φ).Spares cap ↔ p.Spares cap := by
  induction p with
  | root => exact Iff.rfl
  | step f p ih =>
      simp only [image_step, Spares, f.beside_image, f.size_image, ih, Option.mem_map, forall_exists_index, and_imp,
        forall_apply_eq_imp_iff₂, BTree.width_image]

theorem ids_plug_congr (p : Path ι E n m) {t u : BTree ι E n} (h : t.ids = u.ids) : (p.plug t).ids = (p.plug u).ids := by
  induction p with
  | root => exact h
  | step f p ih =>
      refine ih ?_
      rw [Frame.fill, Frame.fill, BTree.ids_node, BTree.ids_node, List.map_append, List.map_append, List.map_cons,
        List.map_cons, h]

@[simp] theorem depth_image (p : Path ι E n m) : (p.image φ).depth = p.depth := by
  induction p with
  | root => rfl
  | step f p ih => exact congrArg (· + 1) ih

theorem image_self {φ : E → E} {p : Path ι E n m} (h : ∀ e ∈ p.left ++ p.right, φ e = e) : p.image φ = p := by
  induction p with
  | root => rfl
  | step f p ih =>
      have hf : f.image φ = f := Frame.image_self fun e he => h e ?_
      have hp : p.image φ = p := ih fun e he => h e ?_
      · rw [image_step, hf, hp]
      · simp only [left_step, right_step, List.mem_append] at he ⊢
        tauto
      · simp only [left_step, right_step, List.mem_append] at he ⊢
        tauto

end Path

section Instead

variable [DecidableEq E] {e x : E} {L : List E}

-- One entry gives way to another.
def instead (e x y : E) : E := if y = e then x else y

theorem instead_of_ne {y : E} (h : y ≠ e) : instead e x y = y := if_neg h

theorem map_instead (h : e ∉ L) : L.map (instead e x) = L :=
  (List.map_congr_left fun _ hy => instead_of_ne (ne_of_mem_of_not_mem hy h)).trans (List.map_id L)

theorem map_instead_cons (h : e ∉ L) : (e :: L).map (instead e x) = x :: L := by
  rw [List.map_cons, map_instead h, instead, if_pos rfl]

theorem Path.image_instead (p : Path ι E (n + 1) m) {a : ι} {l r : List E} {ks : List (BTree ι E n)}
    (hks : l.length < ks.length) (hnd : (p.plug (BTree.node a (l ++ e :: r) ks)).inorder.Nodup) :
    (p.plug (BTree.node a (l ++ e :: r) ks)).image (instead e x) = p.plug (BTree.node a (l ++ x :: r) ks) := by
  rw [p.inorder_entry e hks] at hnd
  obtain ⟨hl,hr⟩ := not_or.1 fun h => (List.nodup_cons.1 (List.perm_middle.nodup_iff.1 hnd)).1 (List.mem_append.2 h)
  simp only [List.mem_append, not_or] at hl hr
  have hout : ∀ y ∈ p.left ++ p.right, instead e x y = y := fun y hy => instead_of_ne <| by
    rcases List.mem_append.1 hy with hy | hy
    · exact ne_of_mem_of_not_mem hy hl.1
    · exact ne_of_mem_of_not_mem hy hr.2
  have hkid : ∀ k ∈ ks, k.image (instead e x) = k := by
    intro k hk
    refine BTree.image_self fun y hy => instead_of_ne ?_
    rw [← List.take_append_drop (l.length + 1) ks, List.mem_append] at hk
    rcases hk with hk | hk
    · exact ne_of_mem_of_not_mem (mem_weave.2 (Or.inl ⟨_,List.mem_map_of_mem hk,hy⟩)) hl.2
    · exact ne_of_mem_of_not_mem (mem_weave.2 (Or.inl ⟨_,List.mem_map_of_mem hk,hy⟩)) hr.1
  have hle : e ∉ l := fun h => hl.2 (mem_weave.2 (Or.inr h))
  have hre : e ∉ r := fun h => hr.1 (mem_weave.2 (Or.inr h))
  rw [← p.plug_image, Path.image_self hout, BTree.image_node, List.map_append, map_instead hle, map_instead_cons hre,
    (List.map_congr_left hkid).trans (List.map_id ks)]

end Instead

end Multiway
