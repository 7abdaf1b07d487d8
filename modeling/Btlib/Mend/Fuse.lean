import Btlib.Mend.Bare
import Btlib.Data.Drop

namespace Btlib

open Multiway

variable {n m : Nat} {s s' s'' : St} {fs os : List Int} {D D' : Int → Block} {a b : Int} {la lb : List KeyEnt} {e : KeyEnt}

-- Only the keys of the blocks in `C` are others.
structure Turned (s s' : St) (C : List Int) : Prop where
  ctx : s'.ctx = { s.ctx with keyent := s'.ctx.keyent }
  size : s'.disk.size = s.disk.size
  info : ∀ c, (s.disk.block c).SameInfo (s'.disk.block c)
  other : ∀ c, c ∉ C → s'.disk.block c = s.disk.block c

namespace Turned

variable {C : List Int} {c : Int}

theorem refl (s : St) (C : List Int) : Turned s s C := ⟨rfl,rfl,fun _ => Block.SameInfo.refl _,fun _ _ => rfl⟩

theorem trans (h : Turned s s' C) (h' : Turned s' s'' C) : Turned s s'' C where
  ctx := by rw [h'.ctx, h.ctx]
  size := h'.size.trans h.size
  info c := (h.info c).trans (h'.info c)
  other c hc := (h'.other c hc).trans (h.other c hc)

theorem mono {C' : List Int} (h : Turned s s' C) (hC : ∀ c ∈ C, c ∈ C') : Turned s s' C' :=
  ⟨h.ctx,h.size,h.info,fun c hc => h.other c fun hm => hc (hC c hm)⟩

theorem put (h : Turned s s' C) (hc : c ∈ C) {B : Block} (hi : (s'.disk.block c).SameInfo B) :
    Turned s { s' with disk := s'.disk.put c B } C := by
  refine h.trans ⟨rfl,rfl,fun d => ?_,fun d hd => Function.update_of_ne (ne_of_mem_of_not_mem hc hd).symm _ _⟩
  rw [Disk.block_put, Function.update_apply]
  split
  · rename_i heq
    rw [heq]
    exact hi
  · exact Block.SameInfo.refl _

theorem keyent (h : Turned s s' C) (ke : KeyEnt) : Turned s { s' with ctx.keyent := ke } C :=
  ⟨by rw [h.ctx],h.size,h.info,h.other⟩

theorem has (h : Turned s s' C) (hc : s.disk.Has c) : s'.disk.Has c := by
  simpa only [Disk.Has, h.size] using hc

end Turned

theorem perm_behind {α : Type} (x : α) (l : List α) {r : List α} : (l ++ x :: r).Perm (x :: (l ++ r)) := List.perm_middle

-- The state once `b` is given back.
def St.without [Build] (s : St) (b : Int) : St :=
  ⟨s.ctx.freed b,s.disk.put b ((s.disk.block b).setBk ZFREE 0 s.ctx.super.sfreep 0 0 ZNULL)⟩

theorem Store.without [Build] {used : List Int} (h : Store s fs (b :: used)) : Store (s.without b) (b :: fs) used := by
  have hb : b ∈ b :: used := List.mem_cons_self
  have hne : ∀ c ∈ fs, c ≠ b := fun c hc => ne_of_mem_of_not_mem hc (h.not_mem_free hb)
  refine ⟨⟨rfl,?_,?_⟩,List.perm_middle.nodup_iff.1 h.nodup,fun c hc => ?_,h.size,h.size_nonneg⟩
  · simp [St.without, Block.setBk, Block.setInf]
  · simp only [St.without, Disk.block_put, Function.update_self]
    exact h.chain.congr fun c hc => Function.update_of_ne (hne c hc) _ _
  · exact h.has c (List.perm_middle.mem_iff.2 hc)

-- What the repair of a tree leaves alone.
structure Undisturbed (s s' : St) (os : List Int) : Prop where
  keeps : Keeps s s' os
  err : s'.ctx.err = s.ctx.err
  lfkey : s'.ctx.lf.lfkey = s.ctx.lf.lfkey
  size : s'.disk.size = s.disk.size

namespace Undisturbed

theorem refl (s : St) (os : List Int) : Undisturbed s s os := ⟨.refl s os,rfl,rfl,rfl⟩

theorem trans (h : Undisturbed s s' os) (h' : Undisturbed s' s'' os) : Undisturbed s s'' os :=
  ⟨h.keeps.trans h'.keeps,h'.err.trans h.err,h'.lfkey.trans h.lfkey,h'.size.trans h.size⟩

theorem same (hd : s'.disk = s.disk)
    (hc : s'.ctx = { s.ctx with lf := s'.ctx.lf, stk := s'.ctx.stk, keyent := s'.ctx.keyent })
    (hk : s'.ctx.lf.lfkey = s.ctx.lf.lfkey) : Undisturbed s s' os := by
  refine ⟨⟨?_,?_,?_,?_,?_,fun b _ => by rw [hd],?_⟩,?_,hk,by rw [hd]⟩
  · rw [hc]
  · rw [hc]
  · rw [hc]
  · rw [hc]
  · rw [hc]
  · rw [hd]
    exact .refl _
  · rw [hc]

theorem without [Build] {b : Int} (h : Undisturbed s s' os) (hb : b ∉ os) (hroot : b ≠ s'.ctx.super.scroot) :
    Undisturbed s (s'.without b) os := by
  have hother : ∀ c, c ≠ b → (s'.without b).disk.block c = s'.disk.block c := fun c hc => Function.update_of_ne hc _ _
  refine h.trans ⟨⟨rfl,rfl,rfl,rfl,rfl,fun c hc => hother c (ne_of_mem_of_not_mem hc hb),?_⟩,rfl,rfl,rfl⟩
  rw [hother _ (Ne.symm hroot)]
  exact .refl _

end Undisturbed

theorem Index.undisturbed {k : Nat} {t : KeyTree k} {C : List Int} (h : Index s t fs os) (ht : Turned s s' C)
    (hC : ∀ c ∈ C, c ∈ t.ids) : Undisturbed s s' os := by
  have hctx := ht.ctx
  refine ⟨⟨?_,?_,?_,?_,?_,fun c hc => ht.other c fun hm => h.not_mem_os (hC c hm) hc,ht.info _⟩,?_,?_,ht.size⟩ <;> rw [hctx]

section Two

variable {g : KeyFrame n} {p : KeyPath (n + 1) m} {t u : KeyTree n}

theorem holds_two : Holds D (p.plug (g.fillTwo t e u)) ↔ PathHolds D p g.id ∧
    (D g.id).Shows (g.le ++ e :: g.re) (g.lk.map BTree.link ++ t.link :: u.link :: g.rk.map BTree.link) ∧
      (∀ k ∈ g.lk ++ g.rk, Holds D k) ∧ Holds D t ∧ Holds D u := by
  have hne : g.le ++ e :: g.re ≠ [] := by simp
  rw [holds_plug_iff, link_fillTwo, Frame.fillTwo, holds_node, nodeLinks_of_ne hne]
  simp only [List.map_append, List.map_cons, List.mem_append, List.mem_cons]
  grind

end Two

section Fuse

variable {g : KeyFrame (n + 1)} {p : KeyPath (n + 2) m} {ka kb : List (KeyTree n)}

theorem holds_hole {t : KeyTree (n + 1)} : Holds D (p.plug (g.fill t)) ↔ PathHolds D p g.id ∧
    (D g.id).Shows (g.le ++ g.re) (g.lk.map BTree.link ++ t.link :: g.rk.map BTree.link) ∧
      (∀ k ∈ g.lk ++ g.rk, Holds D k) ∧ Holds D t := by
  rw [holds_plug_iff, link_fill, Frame.fill, holds_node, nodeLinks_succ]
  simp only [List.map_append, List.map_cons, List.mem_append, List.mem_cons]
  grind

-- What is below two neighbours, and beside and above them and their parent.
def around (g : KeyFrame (n + 1)) (p : KeyPath (n + 2) m) (ka kb : List (KeyTree n)) : List Int :=
  ((ka ++ kb).map BTree.ids).flatten ++ (((g.lk ++ g.rk).map BTree.ids).flatten ++ p.ids)

theorem ids_two : (p.plug (g.fillTwo (BTree.node a la ka) e (BTree.node b lb kb))).ids.Perm
    (a :: b :: g.id :: around g p ka kb) := by
  refine (p.ids_plug _).trans (((g.ids_fillTwo _ _).append_right _).trans ?_)
  simp only [BTree.ids_node, around, Frame.ids, List.map_append, List.flatten_append, List.cons_append, List.append_assoc]
  refine List.Perm.cons a ?_
  refine List.perm_middle.trans (List.Perm.cons b ?_)
  rw [← List.append_assoc, ← List.append_assoc]
  refine List.perm_middle.trans ?_
  rw [List.append_assoc]

theorem ids_fused : (p.plug (g.fill (BTree.node a (la ++ e :: lb) (ka ++ kb)))).ids.Perm
    (a :: g.id :: around g p ka kb) := by
  refine (p.ids_plug _).trans (((g.ids_fill _).append_right _).trans ?_)
  simp only [BTree.ids_node, around, Frame.ids, List.cons_append, List.append_assoc]
  exact List.Perm.cons a List.perm_middle

theorem ids_fuse : (p.plug (g.fillTwo (BTree.node a la ka) e (BTree.node b lb kb))).ids.Perm
    (b :: (p.plug (g.fill (BTree.node a (la ++ e :: lb) (ka ++ kb)))).ids) :=
  ids_two.trans ((List.Perm.swap b a _).trans (ids_fused.symm.cons b))

theorem Index.two_nodup (h : Index s (p.plug (g.fillTwo (BTree.node a la ka) e (BTree.node b lb kb))) fs os) :
    a ≠ b ∧ a ≠ g.id ∧ b ≠ g.id ∧ b ≠ s.ctx.super.scroot ∧
      ∀ c ∈ [g.id,a,b], c ∈ (p.plug (g.fillTwo (BTree.node a la ka) e (BTree.node b lb kb))).ids := by
  have hnd := ids_two.nodup_iff.1 h.nodup
  simp only [List.nodup_cons, List.mem_cons, not_or] at hnd
  obtain ⟨⟨hab,hag,-⟩,⟨hbg,hbo⟩,-⟩ := hnd
  refine ⟨hab,hag,hbg,?_,fun c hc => ids_two.mem_iff.2 ?_⟩
  · rw [← h.link, link_plug, link_fillTwo]
    rcases p.top_mem g.id with htop | htop
    · rw [htop]
      exact hbg
    · refine (ne_of_mem_of_not_mem htop fun hm => hbo ?_).symm
      exact List.mem_append_right _ (List.mem_append_right _ hm)
  · simp only [List.mem_cons, List.not_mem_nil, or_false] at hc ⊢
    tauto

theorem Index.not_dup {t : KeyTree m} (h : Index s t fs os) (hb : b ∈ t.ids) : ¬ (s.disk.block b).btype = ZDUP := by
  rw [h.kind b hb]
  split <;> decide

theorem inorder_fused (h : ka.length = la.length + 1) :
    (g.fill (BTree.node a (la ++ e :: lb) (ka ++ kb))).inorder =
      (g.fillTwo (BTree.node a la ka) e (BTree.node b lb kb)).inorder := by
  have hka : (ka.map BTree.inorder).length = la.length + 1 := by rw [List.length_map, h]
  rw [g.inorder_fill, g.inorder_fillTwo, BTree.inorder_node, BTree.inorder_node, BTree.inorder_node, List.map_append,
    weave_split hka]

-- What is around the two holds as long as its blocks stay.
theorem around_congr (hp : PathHolds D p g.id) (hg : ∀ k ∈ g.lk ++ g.rk, Holds D k) (hk : ∀ k ∈ ka ++ kb, Holds D k)
    (h : ∀ c ∈ around g p ka kb, D' c = D c) :
    PathHolds D' p g.id ∧ (∀ k ∈ g.lk ++ g.rk, Holds D' k) ∧ ∀ k ∈ ka ++ kb, Holds D' k := by
  refine ⟨hp.congr fun c hc => h c ?_,fun k hk' => (hg k hk').congr fun c hc => h c ?_,
    fun k hk' => (hk k hk').congr fun c hc => h c ?_⟩
  · exact List.mem_append_right _ (List.mem_append_right _ hc)
  · exact List.mem_append_right _ (List.mem_append_left _ (List.mem_flatten.2 ⟨_,List.mem_map_of_mem hk',hc⟩))
  · exact List.mem_append_left _ (List.mem_flatten.2 ⟨_,List.mem_map_of_mem hk',hc⟩)

theorem Index.fuse [Build] (h : Index s (p.plug (g.fillTwo (BTree.node a la ka) e (BTree.node b lb kb))) fs os)
    (ht : Turned s s' [g.id,a,b]) (ha : (s'.disk.block a).Shows (la ++ e :: lb) ((ka ++ kb).map BTree.link))
    (hg : (s'.disk.block g.id).Shows (g.le ++ g.re) (g.lk.map BTree.link ++ a :: g.rk.map BTree.link)) :
    Index (s'.without b) (p.plug (g.fill (BTree.node a (la ++ e :: lb) (ka ++ kb)))) (b :: fs) os := by
  obtain ⟨hp,-,hk,hta,htb⟩ := holds_two.1 h.holds
  have hnd := ids_two.nodup_iff.1 h.nodup
  simp only [List.nodup_cons, List.mem_cons, not_or] at hnd
  obtain ⟨⟨hab,hag,hao⟩,⟨hbg,hbo⟩,hgo,-⟩ := hnd
  have hsuper : s'.ctx.super = s.ctx.super := by rw [ht.ctx]
  have hids : (p.plug (g.fillTwo (BTree.node a la ka) e (BTree.node b lb kb))).ids.Perm
      (b :: (p.plug (g.fill (BTree.node a (la ++ e :: lb) (ka ++ kb)))).ids) := ids_fuse
  have hblock : ∀ c, c ≠ b → (s'.without b).disk.block c = s'.disk.block c := fun c hc => Function.update_of_ne hc _ _
  have hfree : ∀ c ∈ fs, c ∉ [g.id,a,b] := fun c hc hm => by
    refine h.store.not_mem_free (List.mem_append_left _ (ids_two.mem_iff.2 ?_)) hc
    simp only [List.mem_cons, List.not_mem_nil, or_false] at hm ⊢
    tauto
  have hstore : Store s' fs (b :: ((p.plug (g.fill (BTree.node a (la ++ e :: lb) (ka ++ kb)))).ids ++ os)) :=
    (h.store.perm (hids.append_right os)).transfer ht.size (fun c hc => ht.other c (hfree c hc)) (by rw [hsuper])
      (by rw [hsuper])
  obtain ⟨hp',hk',hkids⟩ : PathHolds (s'.without b).disk.block p g.id ∧
      (∀ k ∈ g.lk ++ g.rk, Holds (s'.without b).disk.block k) ∧ ∀ k ∈ ka ++ kb, Holds (s'.without b).disk.block k :=
    around_congr hp hk (fun k hk => (List.mem_append.1 hk).elim (hta.2 k) (htb.2 k)) fun c hc =>
      (hblock c (ne_of_mem_of_not_mem hc hbo)).trans (ht.other c (by
        simp only [List.mem_cons, List.not_mem_nil, or_false, not_or]
        exact ⟨ne_of_mem_of_not_mem hc hgo,ne_of_mem_of_not_mem hc hao,ne_of_mem_of_not_mem hc hbo⟩))
  refine h.change ?_ ?_ (holds_hole.2 ⟨hp',?_,hk',holds_node.2 ⟨?_,hkids⟩⟩) hstore.without fun c hc => ?_
  · rw [link_plug, link_plug]
    rfl
  · change s'.ctx.super.scroot = s.ctx.super.scroot
    rw [hsuper]
  · rw [hblock _ (Ne.symm hbg)]
    exact hg
  · rw [hblock _ hab, nodeLinks_of_ne (by simp)]
    exact ha
  · refine Or.inl ⟨hids.mem_iff.2 (List.mem_cons_of_mem _ hc),?_⟩
    rw [hblock c ?_]
    · exact (ht.info c).btype
    · rintro rfl
      have hmem := ids_fused.mem_iff.1 hc
      simp only [List.mem_cons] at hmem
      rcases hmem with hm | hm | hm
      · exact hab hm.symm
      · exact hbg hm
      · exact hbo hm

end Fuse

end Btlib
