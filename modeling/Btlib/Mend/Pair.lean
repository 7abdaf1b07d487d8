import Btlib.Mend.Fuse

namespace Btlib

open Multiway

variable {m : Nat} {s s' : St} {fs os : List Int} {D D' : Int → Block} {a b : Int} {la lb la' lb' : List KeyEnt}
  {e e' : KeyEnt} {f : KeyFrame 1} {p : KeyPath 2 m}

def leaf (a : Int) (es : List KeyEnt) : KeyTree 1 := BTree.node a es (List.replicate (es.length + 1) BTree.nil)

section Leaf

@[simp] theorem link_leaf (a : Int) (es : List KeyEnt) : (leaf a es).link = a := rfl

@[simp] theorem ids_leaf (a : Int) (es : List KeyEnt) : (leaf a es).ids = [a] := by
  simp [leaf, BTree.ids_node, List.map_replicate]

@[simp] theorem inorder_leaf (a : Int) (es : List KeyEnt) : (leaf a es).inorder = es := by
  rw [leaf, BTree.inorder_node, List.map_replicate, BTree.inorder_zero]
  induction es with
  | nil => rfl
  | cons e es ih =>
      rw [List.length_cons, List.replicate_succ, weave_cons_cons, ih]
      rfl

theorem wf_leaf {cap low : Nat} : (leaf a la).Wf cap low ↔ low ≤ la.length ∧ la.length ≤ cap := by
  simp [leaf, BTree.wf_node]

theorem eq_leaf {cap low : Nat} {t : KeyTree 1} (h : t.Wf cap low) : ∃ a es, t = leaf a es := by
  obtain ⟨a,es,ks,rfl⟩ := t.eq_node
  refine ⟨a,es,?_⟩
  rw [leaf, List.eq_replicate_iff.2 ⟨(BTree.wf_node.1 h).2.2.1,fun k _ => BTree.eq_nil k⟩]

theorem holds_leaf (h : (D a).Bare la) : Holds D (leaf a la) := by
  refine holds_node.2 ⟨⟨h.nkeys,h.keys,?_⟩,fun _ _ => trivial⟩
  have hlinks := h.links
  rw [nodeLinks]
  split
  · exact Reads.nil
  · rw [map_link_zero, List.length_replicate]
    exact hlinks

theorem bare_of_holds (h : Holds D (leaf a la)) (hne : la ≠ []) : (D a).Bare la := by
  have hs := (holds_node.1 h).1
  rw [nodeLinks_of_ne hne, map_link_zero, List.length_replicate] at hs
  exact hs

end Leaf

-- The links of the parent of two leaves, and of the parent once they are one.
def pairLinks (f : KeyFrame 1) (a b : Int) : List Int := f.lk.map BTree.link ++ a :: b :: f.rk.map BTree.link

def oneLinks (f : KeyFrame 1) (a : Int) : List Int := f.lk.map BTree.link ++ a :: f.rk.map BTree.link

-- The blocks beside and above two leaves and their parent.
def others (f : KeyFrame 1) (p : KeyPath 2 m) : List Int := ((f.lk ++ f.rk).map BTree.ids).flatten ++ p.ids

abbrev pair (p : KeyPath 2 m) (f : KeyFrame 1) (a : Int) (la : List KeyEnt) (e : KeyEnt) (b : Int) (lb : List KeyEnt) :
    KeyTree m := p.plug (f.fillTwo (leaf a la) e (leaf b lb))

abbrev one (p : KeyPath 2 m) (f : KeyFrame 1) (a : Int) (la : List KeyEnt) : KeyTree m := p.plug (f.fill (leaf a la))

theorem ids_pair : (pair p f a la e b lb).ids.Perm (a :: b :: f.id :: others f p) := by
  refine (p.ids_plug _).trans ?_
  refine ((f.ids_fillTwo _ _).append_right _).trans ?_
  rw [ids_leaf, ids_leaf]
  exact .refl _

theorem ids_one : (one p f a la).ids.Perm (a :: f.id :: others f p) := by
  refine (p.ids_plug _).trans ?_
  refine ((f.ids_fill _).append_right _).trans ?_
  rw [ids_leaf]
  exact .refl _

theorem holds_pair : Holds D (pair p f a la e b lb) ↔ PathHolds D p f.id ∧
    (D f.id).Shows (f.le ++ e :: f.re) (pairLinks f a b) ∧ (∀ k ∈ f.lk ++ f.rk, Holds D k) ∧
      Holds D (leaf a la) ∧ Holds D (leaf b lb) := holds_two

theorem holds_one : Holds D (one p f a la) ↔ PathHolds D p f.id ∧
    (D f.id).Shows (f.le ++ f.re) (oneLinks f a) ∧ (∀ k ∈ f.lk ++ f.rk, Holds D k) ∧ Holds D (leaf a la) := holds_hole

-- What is beside and above the two leaves holds as long as its blocks stay.
theorem others_congr (hp : PathHolds D p f.id) (hk : ∀ k ∈ f.lk ++ f.rk, Holds D k)
    (h : ∀ c ∈ others f p, D' c = D c) : PathHolds D' p f.id ∧ ∀ k ∈ f.lk ++ f.rk, Holds D' k := by
  refine ⟨hp.congr fun c hc => h c (List.mem_append_right _ hc),fun k hk' => (hk k hk').congr fun c hc => h c ?_⟩
  exact List.mem_append_left _ (List.mem_flatten.2 ⟨_,List.mem_map_of_mem hk',hc⟩)

theorem Index.turnLeaf {q : KeyPath 1 m} (h : Index s (q.plug (leaf a la)) fs os) (ht : Turned s s' [a])
    (ha : (s'.disk.block a).Bare la') : Index s' (q.plug (leaf a la')) fs os := by
  have hids : ∀ es, (q.plug (leaf a es)).ids.Perm (a :: q.ids) := fun es => by
    have hperm := q.ids_plug (leaf a es)
    rwa [ids_leaf] at hperm
  have hnd := (List.nodup_cons.1 ((hids la).nodup_iff.1 h.nodup)).1
  have hother : ∀ c, c ≠ a → s'.disk.block c = s.disk.block c := fun c hc =>
    ht.other c (List.not_mem_cons_of_ne_of_not_mem hc List.not_mem_nil)
  have hsuper : s'.ctx.super = s.ctx.super := by rw [ht.ctx]
  have hperm : (q.plug (leaf a la')).ids.Perm (q.plug (leaf a la)).ids := (hids la').trans (hids la).symm
  have hp := ((holds_plug_iff q (leaf a la)).1 h.holds).1
  refine h.change ?_ (by rw [hsuper]) ((holds_plug_iff q _).2 ⟨?_,holds_leaf ha⟩) ?_ fun c hc => ?_
  · rw [link_plug, link_plug]
    rfl
  · exact hp.congr fun c hc => hother c (ne_of_mem_of_not_mem hc hnd)
  · refine (h.store.perm (hperm.symm.append_right os)).transfer ht.size (fun c hc => hother c ?_) ?_ ?_
    · rintro rfl
      exact h.store.not_mem_free (List.mem_append_left _ ((hids la).mem_iff.2 List.mem_cons_self)) hc
    · rw [hsuper]
    · rw [hsuper]
  · exact Or.inl ⟨hperm.mem_iff.1 hc,(ht.info c).btype⟩

theorem Index.wear (h : Index s (one p f a la) fs os) (ht : Turned s s' [a]) (ha : (s'.disk.block a).Bare la') :
    Index s' (one p f a la') fs os := Index.turnLeaf (q := .step f p) h ht ha

section Change

variable (h : Index s (pair p f a la e b lb) fs os)
include h

theorem Index.pair_nodup : (a :: b :: f.id :: others f p).Nodup := ids_pair.nodup_iff.1 h.nodup

theorem Index.pair_has {c : Int} (hc : c ∈ [f.id,a,b]) : s.disk.Has c := by
  refine h.has (ids_pair.mem_iff.2 ?_)
  simp only [List.mem_cons, List.not_mem_nil, or_false] at hc ⊢
  tauto

theorem Index.others_ne {c : Int} (hc : c ∈ others f p) : c ∉ [f.id,a,b] := by
  have hnd := h.pair_nodup
  simp only [List.nodup_cons, List.mem_cons, not_or, List.not_mem_nil, or_false] at hnd ⊢
  refine ⟨?_,?_,?_⟩ <;> rintro rfl <;> tauto

theorem Index.pair_free {c : Int} (hc : c ∈ fs) : c ∉ [f.id,a,b] := fun hm => by
  refine h.store.not_mem_free (List.mem_append_left _ (ids_pair.mem_iff.2 ?_)) hc
  simp only [List.mem_cons, List.not_mem_nil, or_false] at hm ⊢
  tauto

theorem Index.turn (ht : Turned s s' [f.id,a,b]) (ha : (s'.disk.block a).Bare la') (hb : (s'.disk.block b).Bare lb')
    (hf : (s'.disk.block f.id).Shows (f.le ++ e' :: f.re) (pairLinks f a b)) :
    Index s' (pair p f a la' e' b lb') fs os := by
  obtain ⟨hp,-,hk,-,-⟩ := holds_pair.1 h.holds
  have hsuper : s'.ctx.super = s.ctx.super := by rw [ht.ctx]
  have hids : (pair p f a la' e' b lb').ids.Perm (pair p f a la e b lb).ids := ids_pair.trans ids_pair.symm
  obtain ⟨hp',hk'⟩ := others_congr hp hk fun c hc => ht.other c (h.others_ne hc)
  refine h.change ?_ (by rw [hsuper]) (holds_pair.2 ⟨hp',hf,hk',holds_leaf ha,holds_leaf hb⟩) ?_ fun c hc => ?_
  · rw [link_plug, link_plug]
    rfl
  · refine (h.store.perm (hids.symm.append_right os)).transfer ht.size (fun c hc => ht.other c (h.pair_free hc)) ?_ ?_
    · rw [hsuper]
    · rw [hsuper]
  · exact Or.inl ⟨hids.mem_iff.1 hc,(ht.info c).btype⟩

theorem Index.merge [Build] (ht : Turned s s' [f.id,a,b]) (ha : (s'.disk.block a).Bare (la ++ e :: lb))
    (hf : (s'.disk.block f.id).Shows (f.le ++ f.re) (oneLinks f a)) :
    Index (s'.without b) (one p f a (la ++ e :: lb)) (b :: fs) os := by
  have hlen : (la ++ e :: lb).length + 1 = la.length + 1 + (lb.length + 1) := by
    simp only [List.length_append, List.length_cons]
    omega
  have hkids : List.replicate ((la ++ e :: lb).length + 1) (BTree.nil : KeyTree 0) =
      List.replicate (la.length + 1) BTree.nil ++ List.replicate (lb.length + 1) BTree.nil := by
    rw [List.replicate_append_replicate, hlen]
  rw [one, leaf, hkids]
  refine h.fuse ht ?_ hf
  rw [← hkids, map_link_zero, List.length_replicate]
  exact ha

end Change

end Btlib
