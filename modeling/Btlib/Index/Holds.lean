import Btlib.Index.Shows
import Btlib.Index.Order
import Btlib.Theory.Zipper

namespace Multiway.BTree

def link : {n : Nat} → BTree Int Btlib.KeyEnt n → Int
  | 0, _ => Btlib.ZNULL
  | _ + 1, t => Node.id t

end Multiway.BTree

namespace Btlib

open Multiway

abbrev KeyTree (n : Nat) : Type := Multiway.BTree Int KeyEnt n

abbrev KeyFrame (n : Nat) : Type := Multiway.Frame Int KeyEnt n

abbrev KeyPath (n m : Nat) : Type := Multiway.Path Int KeyEnt n m

variable {n m : Nat} {D D' : Int → Block}

-- The links of an empty root say nothing.
def nodeLinks (es : List KeyEnt) (ks : List (KeyTree n)) : List Int :=
  if n = 0 ∧ es = [] then [] else ks.map BTree.link

-- The blocks of a tree are there, each saying what its node holds.
def Holds (D : Int → Block) : {n : Nat} → KeyTree n → Prop
  | 0, _ => True
  | _ + 1, t =>
      (D (Node.id t)).Shows (Node.ents t) (nodeLinks (Node.ents t) (Node.kids t)) ∧
        ∀ k ∈ Node.kids t, Holds D k

def FrameHolds (D : Int → Block) (f : KeyFrame n) (c : Int) : Prop :=
  (D f.id).Shows (f.le ++ f.re) (if n = 0 ∧ f.le ++ f.re = [] then []
    else f.lk.map BTree.link ++ c :: f.rk.map BTree.link) ∧ ∀ k ∈ f.lk ++ f.rk, Holds D k

-- The same of the blocks above the block `c`.
def PathHolds (D : Int → Block) : {n m : Nat} → KeyPath n m → Int → Prop
  | _, _, .root, _ => True
  | _, _, .step f p, c => FrameHolds D f c ∧ PathHolds D p f.id

@[simp] theorem link_nil : BTree.link (BTree.nil : KeyTree 0) = ZNULL := rfl

@[simp] theorem link_zero (t : KeyTree 0) : t.link = ZNULL := rfl

@[simp] theorem link_node (b : Int) (es : List KeyEnt) (ks : List (KeyTree n)) :
    BTree.link (BTree.node b es ks) = b := rfl

@[simp] theorem link_fill (f : KeyFrame n) (t : KeyTree n) : BTree.link (f.fill t) = f.id := rfl

@[simp] theorem link_fillTwo (f : KeyFrame n) (t u : KeyTree n) (e : KeyEnt) :
    BTree.link (f.fillTwo t e u) = f.id := rfl

@[simp] theorem holds_zero (t : KeyTree 0) : Holds D t := trivial

theorem holds_node {b : Int} {es : List KeyEnt} {ks : List (KeyTree n)} :
    Holds D (BTree.node b es ks) ↔
      (D b).Shows es (nodeLinks es ks) ∧ ∀ k ∈ ks, Holds D k := Iff.rfl

theorem nodeLinks_of_ne {es : List KeyEnt} {ks : List (KeyTree n)} (h : es ≠ []) :
    nodeLinks es ks = ks.map BTree.link := if_neg fun hc => h hc.2

theorem nodeLinks_succ {es : List KeyEnt} {ks : List (KeyTree (n + 1))} :
    nodeLinks es ks = ks.map BTree.link := if_neg fun hc => Nat.succ_ne_zero n hc.1

theorem map_link_zero (ks : List (KeyTree 0)) : ks.map BTree.link = List.replicate ks.length ZNULL :=
  List.eq_replicate_iff.2 ⟨by simp,by simp⟩

@[simp] theorem pathHolds_root (c : Int) : PathHolds D (.root : KeyPath n n) c := trivial

theorem pathHolds_step {f : KeyFrame n} {p : KeyPath (n + 1) m} {c : Int} :
    PathHolds D (.step f p) c ↔ FrameHolds D f c ∧ PathHolds D p f.id := Iff.rfl

theorem link_plug (p : KeyPath n m) (t : KeyTree n) : (p.plug t).link = p.top t.link := by
  induction p with
  | root => rfl
  | step f p ih => exact ih (f.fill t)

theorem holds_fill_iff {f : KeyFrame n} {t : KeyTree n} :
    Holds D (f.fill t) ↔ FrameHolds D f t.link ∧ Holds D t := by
  rw [Frame.fill, holds_node, FrameHolds, nodeLinks]
  simp only [List.map_append, List.map_cons, List.mem_append, List.mem_cons, and_assoc]
  refine and_congr_right fun _ => ⟨fun h => ⟨fun k hk => h k (by tauto),h t (by tauto)⟩,?_⟩
  rintro ⟨h,ht⟩ k (hk | rfl | hk)
  · exact h k (Or.inl hk)
  · exact ht
  · exact h k (Or.inr hk)

theorem holds_plug_iff (p : KeyPath n m) (t : KeyTree n) :
    Holds D (p.plug t) ↔ PathHolds D p t.link ∧ Holds D t := by
  induction p with
  | root => simp
  | step f p ih => rw [Path.plug_step, ih, holds_fill_iff, pathHolds_step, link_fill]; tauto

section Congr

theorem Holds.congr {t : KeyTree n} (h : Holds D t) (hD : ∀ b ∈ t.ids, D' b = D b) : Holds D' t := by
  induction n with
  | zero => trivial
  | succ n ih =>
      obtain ⟨b,es,ks,rfl⟩ := t.eq_node
      rw [holds_node] at h ⊢
      rw [BTree.ids_node] at hD
      refine ⟨?_,fun k hk => ih (h.2 k hk) fun b hb => hD b ?_⟩
      · rw [hD b List.mem_cons_self]
        exact h.1
      · exact List.mem_cons_of_mem _ (List.mem_flatten.2 ⟨_,List.mem_map_of_mem hk,hb⟩)

theorem FrameHolds.congr {f : KeyFrame n} {c : Int} (h : FrameHolds D f c)
    (hD : ∀ b ∈ f.ids, D' b = D b) : FrameHolds D' f c := by
  refine ⟨?_,fun k hk => (h.2 k hk).congr fun b hb => hD b ?_⟩
  · rw [hD f.id List.mem_cons_self]
    exact h.1
  · exact List.mem_cons_of_mem _ (List.mem_flatten.2 ⟨_,List.mem_map_of_mem hk,hb⟩)

theorem PathHolds.congr {p : KeyPath n m} {c : Int} (h : PathHolds D p c)
    (hD : ∀ b ∈ p.ids, D' b = D b) : PathHolds D' p c := by
  induction p generalizing c with
  | root => trivial
  | step f p ih =>
      rw [Path.ids_step] at hD
      exact ⟨h.1.congr fun b hb => hD b (List.mem_append_left _ hb),
        ih h.2 fun b hb => hD b (List.mem_append_right _ hb)⟩

theorem Holds.update {t : KeyTree n} (h : Holds D t) {b : Int} (hb : b ∉ t.ids) (blk : Block) :
    Holds (Function.update D b blk) t :=
  h.congr fun _ hc => Function.update_of_ne (ne_of_mem_of_not_mem hc hb) _ _

theorem FrameHolds.update {f : KeyFrame n} {c : Int} (h : FrameHolds D f c) {b : Int} (hb : b ∉ f.ids)
    (blk : Block) : FrameHolds (Function.update D b blk) f c :=
  h.congr fun _ hc => Function.update_of_ne (ne_of_mem_of_not_mem hc hb) _ _

theorem PathHolds.update {p : KeyPath n m} {c : Int} (h : PathHolds D p c) {b : Int} (hb : b ∉ p.ids)
    (blk : Block) : PathHolds (Function.update D b blk) p c :=
  h.congr fun _ hc => Function.update_of_ne (ne_of_mem_of_not_mem hc hb) _ _

end Congr

end Btlib
